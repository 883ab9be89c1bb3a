import PowerRule.Poly.Parse
import PowerRule.Proofs.Lexeme

/-!
Spelling: which texts are taken to their end, and as which tokens.

`Spells text tokens` says that `text` is `tokens` one after the other, each with its blanks before it
and each scanned in front of what really follows it.  It is what a stream does without the stream:

    Spells text tokens  ↔  tokensOf ⟨text, position, false⟩.items = .ok tokens

wherever the text stands (`Spells.tokensOf_items`, `spells_of_tokensOf_items`).  Texts are put together
by one law: if a text spells something and a seam stands behind it, the items of the whole are the items
of the parts, those of the second part as many bytes later as the first part is long
(`Spells.items_append`).
-/

namespace PowerRule

/-- So many blanks. -/
def spaces (n : Nat) : List Char := List.replicate n ' '

/-- The text is these tokens, with any blanks before each and none at the end. -/
inductive Spells : List Char → List Token → Prop where
  | nil : Spells [] []
  | cons (n : Nat) {lexeme rest : List Char} {t : Token} {tokens : List Token}
      (hscan : Token.scan? (lexeme ++ rest) = some (t, lexeme.length)) (htail : Spells rest tokens) :
      Spells (spaces n ++ (lexeme ++ rest)) (t :: tokens)

/-- Lexemes and blanks have one byte for each character. -/
theorem utf8ByteSize_ofList_of_isLexical {text : List Char}
    (h : ∀ c ∈ text, isLexical c = true ∨ c = ' ') :
    (String.ofList text).utf8ByteSize = text.length := by
  induction text with
  | nil => rfl
  | cons c tail ih =>
    obtain ⟨hc, htail⟩ := List.forall_mem_cons.1 h
    have hone : c.utf8Size = 1 := by
      rcases hc with hlexical | rfl
      · exact utf8Size_of_isLexical hlexical
      · rfl
    rw [String.ofList_cons, String.utf8ByteSize_append, String.utf8ByteSize_singleton, hone, ih htail,
      List.length_cons, Nat.add_comm]

/-! ### Results -/

/-- A result under a function comes from a result. -/
theorem exists_of_map_eq_ok {ε α β : Type} {r : Except ε α} {f : α → β} {b : β}
    (h : r.map f = .ok b) : ∃ a, r = .ok a ∧ f a = b := by
  cases r with
  | ok a => exact ⟨a, rfl, Except.ok.inj h⟩
  | error e => cases h

theorem eq_ok_of_mapError_eq_ok {ε ε' α : Type} {r : Except ε α} {f : ε → ε'} {a : α}
    (h : r.mapError f = .ok a) : r = .ok a := by
  cases r with
  | ok b => exact congrArg Except.ok (Except.ok.inj h)
  | error e => cases h

/-! ### Blanks -/

theorem takeWhile_spaces_append (n : Nat) {body : List Char} (h : body.head? ≠ some ' ') :
    (spaces n ++ body).takeWhile TokenStream.isBlank = spaces n := by
  have hblank : ∀ c ∈ spaces n, TokenStream.isBlank c = true := by
    intro c hc
    rw [List.eq_of_mem_replicate hc]
    rfl
  have hbody : body.takeWhile TokenStream.isBlank = [] := by
    cases body with
    | nil => rfl
    | cons c tail =>
      have hc : c ≠ ' ' := by
        rintro rfl
        exact h rfl
      simp [TokenStream.isBlank, hc]
  rw [List.takeWhile_append_of_pos hblank, hbody, List.append_nil]

theorem dropWhile_spaces_append (n : Nat) {body : List Char} (h : body.head? ≠ some ' ') :
    (spaces n ++ body).dropWhile TokenStream.isBlank = body := by
  have hsplit := List.takeWhile_append_dropWhile
    (p := TokenStream.isBlank) (l := spaces n ++ body)
  rw [takeWhile_spaces_append n h] at hsplit
  exact List.append_cancel_left hsplit

/-- Every text is blanks and a body that does not start with one. -/
theorem exists_spaces_append (text : List Char) :
    ∃ n body, text = spaces n ++ body ∧ body.head? ≠ some ' ' := by
  refine ⟨(text.takeWhile TokenStream.isBlank).length, text.dropWhile TokenStream.isBlank, ?_, ?_⟩
  · have hblanks : text.takeWhile TokenStream.isBlank
        = spaces (text.takeWhile TokenStream.isBlank).length := by
      refine List.eq_replicate_of_mem ?_
      intro c hc
      have hall := List.all_takeWhile (p := TokenStream.isBlank) (l := text)
      exact of_decide_eq_true (List.all_eq_true.1 hall c hc)
    rw [← hblanks, List.takeWhile_append_dropWhile]
  · intro hhead
    have hnot := List.head?_dropWhile_not TokenStream.isBlank text
    rw [hhead] at hnot
    cases hnot

theorem Token.head?_ne_blank {body : List Char} {p : Token × Nat} (h : Token.scan? body = some p) :
    body.head? ≠ some ' ' := by
  cases body with
  | nil => simp
  | cons c tail =>
    intro hc
    cases hc
    rw [scan?_of_not_isLexical rfl] at h
    cases h

/-! ### One item -/

namespace TokenStream

theorem next?_token (n position : Nat) {body : List Char} {t : Token} {width : Nat}
    (h : Token.scan? body = some (t, width)) :
    next? ⟨spaces n ++ body, position, false⟩
      = some (.token (position + n) t, ⟨body.drop width, position + n + width, false⟩) := by
  have hhead := Token.head?_ne_blank h
  have hne : (spaces n ++ body).isEmpty = false := by
    cases body with
    | nil => cases h
    | cons c tail => simp
  unfold next?
  simp only [hne, takeWhile_spaces_append n hhead, dropWhile_spaces_append n hhead, h]
  simp [spaces]

theorem next?_malformed (n position : Nat) {body : List Char} (hne : spaces n ++ body ≠ [])
    (hhead : body.head? ≠ some ' ') (h : Token.scan? body = none) :
    next? ⟨spaces n ++ body, position, false⟩
      = some (.malformed (position + n), ⟨body, position + n, true⟩) := by
  have hempty : (spaces n ++ body).isEmpty = false := by
    rwa [List.isEmpty_eq_false_iff]
  unfold next?
  simp only [hempty, takeWhile_spaces_append n hhead, dropWhile_spaces_append n hhead, h]
  simp [spaces]

theorem next?_nil (position : Nat) (failed : Bool) : next? ⟨[], position, failed⟩ = none := by
  unfold next?
  simp

theorem next?_failed (rest : List Char) (position : Nat) : next? ⟨rest, position, true⟩ = none := rfl

/-! ### All items -/

theorem items_of_next?_none {s : TokenStream} (h : s.next? = none) : s.items = [] := by
  unfold items
  rw [drain_of_next?_none h]

theorem items_of_next?_some {s s' : TokenStream} {item : Item} (h : s.next? = some (item, s')) :
    s.items = item :: s'.items := by
  show s.drain.1 = _
  rw [drain_of_next?_some h]

theorem items_nil (position : Nat) (failed : Bool) : items ⟨[], position, failed⟩ = [] :=
  items_of_next?_none (next?_nil position failed)

theorem items_token (n position : Nat) {body : List Char} {t : Token} {width : Nat}
    (h : Token.scan? body = some (t, width)) :
    items ⟨spaces n ++ body, position, false⟩
      = .token (position + n) t :: items ⟨body.drop width, position + n + width, false⟩ :=
  items_of_next?_some (next?_token n position h)

/-- A stream fails once. -/
theorem items_malformed (n position : Nat) {body : List Char} (hne : spaces n ++ body ≠ [])
    (hhead : body.head? ≠ some ' ') (h : Token.scan? body = none) :
    items ⟨spaces n ++ body, position, false⟩ = [.malformed (position + n)] := by
  rw [items_of_next?_some (next?_malformed n position hne hhead h),
    items_of_next?_none (next?_failed body _)]

end TokenStream

/-- Induction along a stream: a text is empty, or a token with its blanks and a text that is left, or
it starts with no token. -/
@[elab_as_elim] theorem streamInduction {motive : List Char → Prop} (nil : motive [])
    (token : ∀ n lexeme rest t, Token.scan? (lexeme ++ rest) = some (t, lexeme.length) →
      motive rest → motive (spaces n ++ (lexeme ++ rest)))
    (malformed : ∀ n body, spaces n ++ body ≠ [] → body.head? ≠ some ' ' →
      Token.scan? body = none → motive (spaces n ++ body))
    (text : List Char) : motive text := by
  obtain ⟨n, body, htext, hhead⟩ := exists_spaces_append text
  by_cases hne : text = []
  · rw [hne]
    exact nil
  · cases hscan : Token.scan? body with
    | none =>
      rw [htext] at hne ⊢
      exact malformed n body hne hhead hscan
    | some p =>
      obtain ⟨t, width⟩ := p
      -- A token takes a character at least, so the text that is left is shorter.
      have hwidth := Token.scan?_width hscan
      have hlt : (body.drop width).length < text.length := by
        rw [htext, List.length_drop, List.length_append]
        omega
      have hrest : motive (body.drop width) := streamInduction nil token malformed _
      have hlen : (body.take width).length = width := List.length_take_of_le hwidth.2
      rw [htext, ← List.take_append_drop width body]
      refine token n _ _ t ?_ hrest
      rw [List.take_append_drop, hlen]
      exact hscan
termination_by text.length
decreasing_by exact hlt

/-! ### Spelling and streams -/

theorem tokensOf_token (start : Nat) (t : Token) (items : List Item) :
    tokensOf (.token start t :: items) = (tokensOf items).map (t :: ·) := rfl

theorem TokenStream.items_lexeme (n position : Nat) {lexeme rest : List Char} {t : Token}
    (h : Token.scan? (lexeme ++ rest) = some (t, lexeme.length)) :
    items ⟨spaces n ++ (lexeme ++ rest), position, false⟩
      = .token (position + n) t :: items ⟨rest, position + n + lexeme.length, false⟩ := by
  rw [items_token n position h, List.drop_left]

theorem TokenStream.items_operator (s : Sign) (rest : List Char) (position : Nat) :
    items ⟨s.lexeme :: rest, position, false⟩
      = .token position (.operator s) :: items ⟨rest, position + 1, false⟩ :=
  items_token 0 position (Token.scan?_lexeme s rest)

/-- A character that no lexeme has ends a stream. -/
theorem TokenStream.items_foreign {c : Char} (h : isLexical c = false) (hblank : c ≠ ' ')
    (rest : List Char) (position : Nat) :
    items ⟨c :: rest, position, false⟩ = [.malformed position] := by
  refine items_malformed 0 position (List.cons_ne_nil c rest) ?_ (Token.scan?_of_not_isLexical h rest)
  intro hhead
  exact hblank (Option.some.inj hhead)

theorem Spells.tokensOf_items {text : List Char} {tokens : List Token} (h : Spells text tokens)
    (position : Nat) : tokensOf (TokenStream.mk text position false).items = .ok tokens := by
  induction h generalizing position with
  | nil =>
    rw [TokenStream.items_nil]
    rfl
  | cons n hscan _ ih =>
    rw [TokenStream.items_lexeme n position hscan, tokensOf_token, ih]
    rfl

theorem spells_of_tokensOf_items {text : List Char} (position : Nat) {tokens : List Token}
    (h : tokensOf (TokenStream.mk text position false).items = .ok tokens) :
    Spells text tokens := by
  induction text using streamInduction generalizing position tokens with
  | nil =>
    rw [TokenStream.items_nil] at h
    cases h
    exact .nil
  | token n lexeme rest t hscan ih =>
    rw [TokenStream.items_lexeme n position hscan, tokensOf_token] at h
    obtain ⟨others, htail, rfl⟩ := exists_of_map_eq_ok h
    exact .cons n hscan (ih _ htail)
  | malformed n body hne hhead hscan =>
    rw [TokenStream.items_malformed n position hne hhead hscan] at h
    cases h

/-! ### Moving a stream -/

/-- The item so many bytes later. -/
def Item.shift (n : Nat) : Item → Item
  | token start t => token (start + n) t
  | malformed offset => malformed (offset + n)

/-- The error so many bytes later. -/
def ParseError.shift (n : Nat) : ParseError → ParseError
  | malformed offset => malformed (offset + n)
  | ungrammatical f => ungrammatical f

/-- A stream that starts later gives the same items later. -/
theorem TokenStream.items_shift (text : List Char) (position n : Nat) :
    items ⟨text, position + n, false⟩ = (items ⟨text, position, false⟩).map (Item.shift n) := by
  induction text using streamInduction generalizing position with
  | nil =>
    rw [items_nil, items_nil]
    rfl
  | token k lexeme rest t hscan ih =>
    rw [items_lexeme k _ hscan, items_lexeme k _ hscan, List.map_cons, ← ih]
    have hposition : position + n + k = position + k + n := by omega
    have hend : position + n + k + lexeme.length = position + k + lexeme.length + n := by omega
    rw [hend, hposition]
    rfl
  | malformed k body hne hhead hscan =>
    rw [items_malformed k _ hne hhead hscan, items_malformed k _ hne hhead hscan]
    have hposition : position + n + k = position + k + n := by omega
    rw [hposition]
    rfl

theorem tokensOf_map_shift (items : List Item) (n : Nat) :
    tokensOf (items.map (Item.shift n)) = (tokensOf items).mapError (ParseError.shift n) := by
  induction items with
  | nil => rfl
  | cons item items ih =>
    cases item with
    | malformed offset => rfl
    | token start t =>
      show (tokensOf (items.map (Item.shift n))).map (t :: ·) = _
      rw [ih, tokensOf_token]
      cases tokensOf items
      · rfl
      · rfl

theorem tokensOf_append (items others : List Item) :
    tokensOf (items ++ others)
      = (tokensOf items).bind fun tokens => (tokensOf others).map (tokens ++ ·) := by
  induction items with
  | nil =>
    cases h : tokensOf others
    · exact h
    · exact h
  | cons item items ih =>
    cases item with
    | malformed offset => rfl
    | token start t =>
      rw [List.cons_append, tokensOf_token, tokensOf_token, ih]
      cases tokensOf items with
      | error e => rfl
      | ok tokens =>
        cases tokensOf others
        · rfl
        · rfl

/-! ### One text behind another -/

namespace Spells

variable {text rest : List Char} {tokens : List Token}

/-- A lexeme in front of what it can end at. -/
theorem lexeme {l : Lexeme} {t : Token} (ht : l.token? = some t) (hr : l.EndsAt rest)
    (h : Spells rest tokens) : Spells (l.chars ++ rest) (t :: tokens) :=
  .cons 0 (Lexeme.scan?_chars_append ht hr) h

/-- An operator needs no seam behind it. -/
theorem operator (s : Sign) (h : Spells rest tokens) :
    Spells (s.lexeme :: rest) (.operator s :: tokens) :=
  lexeme (l := .operator s) rfl trivial h

theorem term {f : TermForm} {t : Term} (ht : f.term? = some t) (hr : Seam rest)
    (h : Spells rest tokens) : Spells (f.chars ++ rest) (.term t :: tokens) := by
  refine lexeme (l := .term f) ?_ hr h
  rw [Lexeme.token?, ht]
  rfl

/-- More blanks before the first token. -/
theorem spaces_append (n : Nat) {t : Token}
    (h : Spells text (t :: tokens)) : Spells (spaces n ++ text) (t :: tokens) := by
  cases h with
  | @cons k lexeme rest _ _ hscan htail =>
    have hspaces : spaces n ++ (spaces k ++ (lexeme ++ rest))
        = spaces (n + k) ++ (lexeme ++ rest) := by
      rw [← List.append_assoc, spaces, spaces, List.replicate_append_replicate]
      rfl
    rw [hspaces]
    exact .cons (n + k) hscan htail

/-- What is left of such a text never starts with a `^`. -/
theorem head?_ne_caret (h : Spells text tokens) : text.head? ≠ some '^' := by
  cases h with
  | nil => simp
  | cons n hscan _ =>
    cases n with
    | succ k =>
      intro hhead
      cases hhead
    | zero =>
      intro hhead
      obtain ⟨tail, htail⟩ := List.head?_eq_some_iff.1 hhead
      rw [show spaces 0 = [] from rfl, List.nil_append] at htail
      rw [htail] at hscan
      cases hscan

/-- In front of a text that spells something, a token is the same with a seam behind that text. -/
theorem scan?_append_seam {lexeme left : List Char} {t : Token}
    (hscan : Token.scan? (lexeme ++ left) = some (t, lexeme.length)) (hleft : Spells left tokens)
    (hr : Seam rest) : Token.scan? (lexeme ++ (left ++ rest)) = some (t, lexeme.length) := by
  -- What the token leaves spells something, so it is no lone `^`.
  have hlone : NoLoneCaret ((lexeme ++ left).drop lexeme.length) rest := by
    intro hcaret
    rw [List.drop_left] at hcaret
    exact absurd (hcaret ▸ rfl) hleft.head?_ne_caret
  rw [← List.append_assoc]
  exact Token.scan?_append hr hscan hlone

/-- **Behind a text that spells something, a seam is read as it is read alone.** -/
theorem items_append (h : Spells text tokens) (hr : Seam rest) (position : Nat) :
    TokenStream.items ⟨text ++ rest, position, false⟩
      = TokenStream.items ⟨text, position, false⟩
        ++ TokenStream.items ⟨rest, position + text.length, false⟩ := by
  induction h generalizing position with
  | nil =>
    rw [TokenStream.items_nil]
    rfl
  | cons n hscan htail ih =>
    next lexeme left t tokens =>
    have hwhole := scan?_append_seam hscan htail hr
    rw [List.append_assoc, List.append_assoc, TokenStream.items_lexeme n position hwhole,
      TokenStream.items_lexeme n position hscan, ih, List.cons_append]
    have hend : position + (spaces n ++ (lexeme ++ left)).length
        = position + n + lexeme.length + left.length := by
      rw [List.length_append, List.length_append, spaces, List.length_replicate]
      omega
    rw [hend]

/-- Texts that spell something can be put together at a seam. -/
theorem append {others : List Token} (h : Spells text tokens) (hr : Seam rest)
    (h' : Spells rest others) : Spells (text ++ rest) (tokens ++ others) := by
  refine spells_of_tokensOf_items 0 ?_
  rw [h.items_append hr, tokensOf_append, h.tokensOf_items, h'.tokensOf_items]
  rfl

/-- Such a text has the characters of lexemes, and blanks. -/
theorem isLexical_of_mem (h : Spells text tokens) {c : Char} (hc : c ∈ text) :
    isLexical c = true ∨ c = ' ' := by
  induction h with
  | nil => cases hc
  | cons n hscan _ ih =>
    rcases List.mem_append.1 hc with hblank | hmem
    · exact .inr (List.eq_of_mem_replicate hblank)
    · rcases List.mem_append.1 hmem with hlexeme | hrest
      · obtain ⟨l, hchars, _⟩ := Lexeme.exists_of_scan? hscan
        rw [List.take_left] at hchars
        exact .inl (l.isLexical_of_mem (hchars ▸ hlexeme))
      · exact ih hrest

/-- Such a text has one byte for each character. -/
theorem utf8ByteSize_ofList (h : Spells text tokens) :
    (String.ofList text).utf8ByteSize = text.length :=
  utf8ByteSize_ofList_of_isLexical fun _ hc => h.isLexical_of_mem hc

end Spells

/-! ### Spelling and reading -/

namespace Poly

theorem parseChars_eq (text : List Char) :
    parseChars text = (tokensOf (TokenStream.mk text 0 false).items).bind fun tokens =>
      (ofTokens tokens).mapError .ungrammatical := rfl

theorem parseChars_of_spells {text : List Char} {tokens : List Token} (h : Spells text tokens) :
    parseChars text = (ofTokens tokens).mapError .ungrammatical := by
  rw [parseChars_eq, h.tokensOf_items]
  rfl

theorem parseChars_of_error {text : List Char} {e : ParseError}
    (h : tokensOf (TokenStream.mk text 0 false).items = .error e) : parseChars text = .error e := by
  rw [parseChars_eq, h]
  rfl

/-- Only what spells something can be read, or be no sum. -/
theorem parseChars_cases (text : List Char) :
    (∃ tokens, Spells text tokens ∧ parseChars text = (ofTokens tokens).mapError .ungrammatical) ∨
      ∃ e, tokensOf (TokenStream.mk text 0 false).items = .error e ∧ parseChars text = .error e := by
  cases h : tokensOf (TokenStream.mk text 0 false).items with
  | ok tokens =>
    have hspells := spells_of_tokensOf_items 0 h
    exact .inl ⟨tokens, hspells, parseChars_of_spells hspells⟩
  | error e => exact .inr ⟨e, rfl, parseChars_of_error h⟩

/-- What is read spells the tokens of a sum. -/
theorem exists_spells_of_parseChars {text : List Char} {p : Poly} (h : parseChars text = .ok p) :
    ∃ tokens, Spells text tokens ∧ ofTokens tokens = .ok p := by
  rcases parseChars_cases text with ⟨tokens, hspells, hparse⟩ | ⟨e, _, hparse⟩
  · rw [hparse] at h
    exact ⟨tokens, hspells, eq_ok_of_mapError_eq_ok h⟩
  · rw [hparse] at h
    cases h

end Poly

end PowerRule
