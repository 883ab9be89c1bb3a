import PowerRule.Proofs.Meaning
import PowerRule.Proofs.Spelling

/-!
Maximal munch: which lexeme is taken at each place, and how the lexemes cover the text.

`l.IsLongest body` says that of all forms that `body` starts with, in range or not, `l` is the longest.
What a stream gives at `body` depends on `l` alone:

* if `l` is in range, the token is what `l` denotes, and all of `l` is taken;
* if only its exponent is out of range, the token ends at its variable, and the stream fails at the `^`;
* if its coefficient rounds beyond the format, or there is no form at all, the stream fails.

A longest form stops where it ends (`Lexeme.IsLongest.stopsAt`), because what goes on with a part of it
would make a longer form.  The rest is `TermForm.scan?_of_stopsAt`.

A whole run lays one piece of text, blanks and lexeme, next to the other for each token
(`TokenStream.exists_tiling`).  Where the stream does not fail they cover the text.  Where it fails, it
has skipped the blanks that stand behind the last piece; no token takes these, so the pieces do not
always reach the place where the stream stands in the end (`TokenStream.drain_trailing_blank`).
-/

namespace PowerRule

/-! ### Longer forms -/

theorem forall_mem_append_isDigit {digits more : List Char} (h : ∀ c ∈ digits, c.isDigit = true)
    (hmore : ∀ c ∈ more, c.isDigit = true) : ∀ c ∈ digits ++ more, c.isDigit = true := by
  intro c hc
  rcases List.mem_append.1 hc with hleft | hright
  · exact h c hleft
  · exact hmore c hright

/-- More digits behind the digits. -/
def Digits.extend (d : Digits) (more : List Char) (h : ∀ c ∈ more, c.isDigit = true) : Digits where
  chars := d.chars ++ more
  ne_nil := List.append_ne_nil_of_left_ne_nil d.ne_nil more
  isDigit := forall_mem_append_isDigit d.isDigit h

/-- More digits at the end of a literal. -/
def Literal.extend (l : Literal) (more : List Char) (h : ∀ c ∈ more, c.isDigit = true) : Literal :=
  match l.fraction with
  | none => ⟨l.whole.extend more h, none⟩
  | some f => ⟨l.whole, some (f.extend more h)⟩

theorem Literal.chars_extend (l : Literal) (more : List Char) (h : ∀ c ∈ more, c.isDigit = true) :
    (l.extend more h).chars = l.chars ++ more := by
  obtain ⟨whole, fraction⟩ := l
  cases fraction with
  | none => simp [extend, chars, Digits.extend]
  | some f => simp [extend, chars, Digits.extend]

/-- More digits at the end of an integer. -/
def IntegerLiteral.extend (n : IntegerLiteral) (more : List Char)
    (h : ∀ c ∈ more, c.isDigit = true) : IntegerLiteral :=
  ⟨n.negative, n.digits.extend more h⟩

theorem IntegerLiteral.chars_extend (n : IntegerLiteral) (more : List Char)
    (h : ∀ c ∈ more, c.isDigit = true) : (n.extend more h).chars = n.chars ++ more := by
  obtain ⟨negative, digits⟩ := n
  cases negative
  · rfl
  · rfl

/-! ### Forms that nothing can be added to -/

/-- No form is this one and a part of the rest. -/
def Unextended {α : Type} (chars : α → List Char) (a : α) (rest : List Char) : Prop :=
  ∀ (b : α) (more left : List Char), chars b = chars a ++ more → rest = more ++ left → more = []

/-- The longest form has nothing to add to it. -/
theorem unextended_of_length_le {α : Type} {chars : α → List Char} {a : α} {rest : List Char}
    (h : ∀ b, chars b <+: chars a ++ rest → (chars b).length ≤ (chars a).length) :
    Unextended chars a rest := by
  intro b more left hchars hrest
  have hprefix : chars b <+: chars a ++ rest :=
    ⟨left, by rw [hrest, ← List.append_assoc, ← hchars]⟩
  have hle := h b hprefix
  rw [hchars, List.length_append] at hle
  apply List.length_eq_zero_iff.1
  omega

theorem noDigitAhead_of_forall {rest : List Char}
    (h : ∀ more left, (∀ c ∈ more, c.isDigit = true) → rest = more ++ left → more = []) :
    NoDigitAhead rest := by
  have hnil : leadingDigits rest = [] :=
    h _ (afterDigits rest) (fun _ => isDigit_of_mem_leadingDigits)
      (leadingDigits_append_afterDigits rest).symm
  have hrest := leadingDigits_append_afterDigits rest
  rw [hnil, List.nil_append] at hrest
  rw [← hrest]
  exact noDigitAhead_afterDigits rest

theorem Literal.stopsAt_of_unextended {l : Literal} {rest : List Char}
    (h : Unextended chars l rest) : l.StopsAt rest := by
  constructor
  · apply noDigitAhead_of_forall
    intro more left hmore hrest
    exact h (l.extend more hmore) more left (l.chars_extend more hmore) hrest
  · intro hnone
    apply Classical.byContradiction
    intro hdigits
    obtain ⟨tail, rfl⟩ := Decimal.eq_point_cons hdigits
    -- The point and the digits behind it are a fraction of the literal.
    have hnil := h ⟨l.whole, some (.leading tail hdigits)⟩ ('.' :: leadingDigits tail)
      (afterDigits tail) (by simp [chars, hnone, Digits.leading]) (by simp)
    cases hnil

theorem PowerForm.stopsAt_of_unextended {p : PowerForm} {rest : List Char}
    (h : Unextended chars p rest) : p.StopsAt rest := by
  cases p with
  | plain =>
    rintro tail rfl
    cases hscan : Integer.scan? tail with
    | none => rfl
    | some q =>
      obtain ⟨k, width⟩ := q
      obtain ⟨n, hchars, _⟩ := IntegerLiteral.exists_of_scan? hscan
      have hnil := h (raised n) ('^' :: n.chars) (tail.drop width) rfl (by simp [hchars])
      cases hnil
  | raised n =>
    apply noDigitAhead_of_forall
    intro more left hmore hrest
    refine h (raised (n.extend more hmore)) more left ?_ hrest
    simp [chars, n.chars_extend more hmore]

theorem TermForm.stopsAt_of_unextended {f : TermForm} {rest : List Char}
    (h : Unextended chars f rest) : f.StopsAt rest := by
  cases f with
  | constant l =>
    constructor
    · apply Literal.stopsAt_of_unextended
      intro l' more left hchars hrest
      exact h (constant l') more left hchars hrest
    · intro hvariable
      obtain ⟨tail, rfl⟩ := List.head?_eq_some_iff.1 hvariable
      have hnil := h (scaled l .plain) ['x'] tail rfl rfl
      cases hnil
  | scaled l p =>
    apply PowerForm.stopsAt_of_unextended
    intro p' more left hchars hrest
    refine h (scaled l p') more left ?_ hrest
    simp [chars, hchars]
  | bare p =>
    apply PowerForm.stopsAt_of_unextended
    intro p' more left hchars hrest
    exact h (bare p') more left hchars hrest

/-! ### The longest form -/

namespace Lexeme

/-- The text starts with the form, and with no longer one. -/
structure IsLongest (l : Lexeme) (text : List Char) : Prop where
  isPrefix : l.chars <+: text
  length_le : ∀ l' : Lexeme, l'.chars <+: text → l'.chars.length ≤ l.chars.length

/-- The lexeme without its exponent. -/
def unraised : Lexeme → Lexeme
  | term f => term f.unraised
  | operator s => operator s

theorem IsLongest.stopsAt {f : TermForm} {rest : List Char}
    (h : (term f).IsLongest (f.chars ++ rest)) : f.StopsAt rest :=
  TermForm.stopsAt_of_unextended (unextended_of_length_le fun g hg => h.length_le (term g) hg)

/-- **The token at the start of a text is that of the longest form**, or of the longest form without its
exponent, or there is none. -/
theorem IsLongest.scan?_eq {l : Lexeme} {body : List Char} (h : l.IsLongest body) :
    Token.scan? body = (l.token?.map (·, l.chars.length)).or
      (l.unraised.token?.map (·, l.unraised.chars.length)) := by
  obtain ⟨rest, rfl⟩ := h.isPrefix
  cases l with
  | operator s => exact Token.scan?_lexeme s rest
  | term f =>
    show Token.scan? (f.chars ++ rest) = _
    rw [TermForm.scan?_of_stopsAt h.stopsAt]
    simp only [token?, unraised, chars, Option.map_map]
    rfl

/-- Of the forms that a text starts with one is the longest. -/
theorem exists_isLongest {l : Lexeme} {text : List Char} (h : l.chars <+: text) :
    ∃ l', IsLongest l' text := by
  by_cases hlongest : l.IsLongest text
  · exact ⟨l, hlongest⟩
  · have hlonger : ∃ l' : Lexeme, l'.chars <+: text ∧ l.chars.length < l'.chars.length := by
      apply Classical.byContradiction
      intro hnone
      refine hlongest ⟨h, ?_⟩
      intro l' hl'
      apply Nat.not_lt.1
      intro hlt
      exact hnone ⟨l', hl', hlt⟩
    obtain ⟨l', hl', hlt⟩ := hlonger
    -- A form is no longer than the text, so this comes to an end.
    have hle := hl'.length_le
    exact exists_isLongest hl'
termination_by text.length - l.chars.length

theorem scan?_of_no_form {body : List Char} (h : ∀ l : Lexeme, ¬ l.IsLongest body) :
    Token.scan? body = none := by
  cases hscan : Token.scan? body with
  | none => rfl
  | some p =>
    obtain ⟨l, hchars, _⟩ := exists_of_scan? hscan
    have hprefix : l.chars <+: body := hchars ▸ List.take_prefix ..
    obtain ⟨l', hl'⟩ := exists_isLongest hprefix
    exact absurd hl' (h l')

end Lexeme

/-! ### Ranges -/

theorem TermForm.exists_term {f : TermForm} (hc : f.CoefficientInRange) (he : f.ExponentInRange) :
    ∃ t, f.term? = some t := by
  cases f with
  | constant l =>
    obtain ⟨m, hm⟩ := Literal.InRange.exists_magnitude? hc
    simp [term?, hm]
  | scaled l p =>
    obtain ⟨m, hm⟩ := Literal.InRange.exists_magnitude? hc
    obtain ⟨e, he⟩ := PowerForm.InRange.exists_exponent? he
    simp [term?, hm, he]
  | bare p =>
    obtain ⟨e, he⟩ := PowerForm.InRange.exists_exponent? he
    simp [term?, he]

/-- Only a written exponent can be out of range. -/
theorem PowerForm.eq_raised {p : PowerForm} (h : ¬ p.InRange) : ∃ n, p = raised n := by
  cases p with
  | plain => exact absurd (by decide : plain.InRange) h
  | raised n => exact ⟨n, rfl⟩

/-- Without an exponent that is out of range a term ends at its variable, with exponent one. -/
theorem TermForm.exists_unraised {f : TermForm} (hc : f.CoefficientInRange)
    (he : ¬ f.ExponentInRange) :
    f.term? = none ∧ ∃ c n, f.unraised.term? = some ⟨c, .one⟩ ∧
      f.chars = f.unraised.chars ++ '^' :: IntegerLiteral.chars n := by
  cases f with
  | constant l => exact absurd trivial he
  | scaled l p =>
    obtain ⟨m, hm⟩ := Literal.InRange.exists_magnitude? hc
    have hp := PowerForm.exponent?_eq_none_of_not_inRange he
    obtain ⟨n, rfl⟩ := PowerForm.eq_raised he
    refine ⟨by simp [term?, hm, hp], .finite .plus m, n, by simp [unraised, term?, hm], ?_⟩
    simp [unraised, chars, PowerForm.chars]
  | bare p =>
    have hp := PowerForm.exponent?_eq_none_of_not_inRange he
    obtain ⟨n, rfl⟩ := PowerForm.eq_raised he
    exact ⟨by simp [term?, hp], .one, n, by simp [unraised, term?], rfl⟩

theorem TermForm.term?_of_not_coefficientInRange {f : TermForm} (h : ¬ f.CoefficientInRange) :
    f.term? = none ∧ f.unraised.term? = none := by
  cases f with
  | constant l =>
    have hl := l.magnitude?_eq_none_iff_not_inRange.2 h
    simp [unraised, term?, hl]
  | scaled l p =>
    have hl := l.magnitude?_eq_none_iff_not_inRange.2 h
    simp [unraised, term?, hl]
  | bare p => exact absurd trivial h

namespace Lexeme

namespace IsLongest

variable {l : Lexeme} {body : List Char} (h : l.IsLongest body)

include h

/-- A form in range is scanned whole, as the token that it denotes. -/
theorem exists_scan? (hc : l.CoefficientInRange) (he : l.ExponentInRange) :
    ∃ t, l.Denotes t ∧ Token.scan? body = some (t, l.chars.length) := by
  have hscan := h.scan?_eq
  cases l with
  | operator s => exact ⟨.operator s, rfl, hscan⟩
  | term f =>
    obtain ⟨t, ht⟩ := TermForm.exists_term hc he
    have htoken : (term f).token? = some (.term t) := by simp [token?, ht]
    rw [htoken] at hscan
    exact ⟨.term t, denotes_iff.2 htoken, hscan⟩

/-- A form with only its exponent out of range is scanned up to its variable. -/
theorem exists_scan?_unraised (hc : l.CoefficientInRange) (he : ¬ l.ExponentInRange) :
    ∃ c n, l.unraised.Denotes (.term ⟨c, .one⟩) ∧
      l.chars = l.unraised.chars ++ '^' :: IntegerLiteral.chars n ∧
      Token.scan? body = some (.term ⟨c, .one⟩, l.unraised.chars.length) := by
  have hscan := h.scan?_eq
  cases l with
  | operator s => exact absurd trivial he
  | term f =>
    obtain ⟨hnone, c, n, hterm, hchars⟩ := TermForm.exists_unraised hc he
    have htoken : (term f).unraised.token? = some (.term ⟨c, .one⟩) := by
      simp [unraised, token?, hterm]
    rw [htoken, show (term f).token? = none by simp [token?, hnone]] at hscan
    exact ⟨c, n, denotes_iff.2 htoken, hchars, hscan⟩

theorem scan?_eq_none (hc : ¬ l.CoefficientInRange) : Token.scan? body = none := by
  have hscan := h.scan?_eq
  cases l with
  | operator s => exact absurd trivial hc
  | term f =>
    obtain ⟨hnone, hunraised⟩ := TermForm.term?_of_not_coefficientInRange hc
    simpa [unraised, token?, hnone, hunraised] using hscan

end IsLongest

end Lexeme

/-! ### One item of a stream -/

namespace TokenStream

/-- What a stream gives at `position`, where `n` blanks stand before `body`, is what the longest form at
the start of `body` says. -/
structure NextIsLongest (n position : Nat) (body : List Char) : Prop where
  /-- A form in range is taken whole, as what it denotes. -/
  whole : ∀ l : Lexeme, l.IsLongest body → l.CoefficientInRange → l.ExponentInRange →
    ∃ t, l.Denotes t ∧
      next? ⟨spaces n ++ body, position, false⟩
        = some (.token (position + n) t,
            ⟨body.drop l.chars.length, position + n + l.chars.length, false⟩)
  /-- An exponent out of range is left, with its `^`, and there the stream fails. -/
  cut : ∀ l : Lexeme, l.IsLongest body → l.CoefficientInRange → ¬ l.ExponentInRange →
    ∃ c exponent left, l.unraised.Denotes (.term ⟨c, .one⟩) ∧
      l.chars = l.unraised.chars ++ '^' :: IntegerLiteral.chars exponent ∧
      next? ⟨spaces n ++ body, position, false⟩
        = some (.token (position + n) (.term ⟨c, .one⟩),
            ⟨'^' :: left, position + n + l.unraised.chars.length, false⟩) ∧
      next? ⟨'^' :: left, position + n + l.unraised.chars.length, false⟩
        = some (.malformed (position + n + l.unraised.chars.length),
            ⟨'^' :: left, position + n + l.unraised.chars.length, true⟩)
  /-- Where the coefficient is out of range, or no form stands at all, the stream fails. -/
  fail : (∀ l : Lexeme, l.IsLongest body → ¬ l.CoefficientInRange) →
    next? ⟨spaces n ++ body, position, false⟩
      = some (.malformed (position + n), ⟨body, position + n, true⟩)

theorem nextIsLongest (n position : Nat) {body : List Char} (hhead : body.head? ≠ some ' ')
    (hne : spaces n ++ body ≠ []) : NextIsLongest n position body where
  whole := by
    intro l hl hc he
    obtain ⟨t, ht, hscan⟩ := hl.exists_scan? hc he
    exact ⟨t, ht, next?_token n position hscan⟩
  cut := by
    intro l hl hc he
    obtain ⟨c, exponent, ht, hchars, hscan⟩ := hl.exists_scan?_unraised hc he
    obtain ⟨rest, hrest⟩ := hl.isPrefix
    have hdrop : body.drop l.unraised.chars.length = '^' :: (exponent.chars ++ rest) := by
      rw [← hrest, hchars, List.append_assoc, List.drop_left, List.cons_append]
    refine ⟨c, exponent, exponent.chars ++ rest, ht, hchars, ?_, ?_⟩
    · rw [next?_token n position hscan, hdrop]
    · exact next?_malformed 0 _ (List.cons_ne_nil _ _) (by simp) rfl
  fail := by
    intro hnone
    apply next?_malformed n position hne hhead
    by_cases hform : ∃ l : Lexeme, l.IsLongest body
    · obtain ⟨l, hl⟩ := hform
      exact hl.scan?_eq_none (hnone l hl)
    · exact Lexeme.scan?_of_no_form fun l hl => hform ⟨l, hl⟩

end TokenStream

/-! ### A whole run -/

/-- A lexeme and the blanks before it. -/
structure Piece where
  blanks : Nat
  lexeme : Lexeme

def Piece.chars (a : Piece) : List Char := spaces a.blanks ++ a.lexeme.chars

/-- The items are the tokens that these pieces denote, which lie next to each other from `position`
on. -/
inductive Tiles : Nat → List Piece → List Item → Prop where
  | nil (position : Nat) : Tiles position [] []
  | cons {position : Nat} {a : Piece} {t : Token} {pieces : List Piece} {items : List Item}
      (ht : a.lexeme.Denotes t) (h : Tiles (position + a.chars.length) pieces items) :
      Tiles position (a :: pieces) (.token (position + a.blanks) t :: items)

theorem Piece.isLexical_of_mem {a : Piece} {c : Char} (hc : c ∈ a.chars) :
    isLexical c = true ∨ c = ' ' := by
  rcases List.mem_append.1 hc with hblank | hlexeme
  · exact .inr (List.eq_of_mem_replicate hblank)
  · exact .inl (a.lexeme.isLexical_of_mem hlexeme)

/-- A piece ends with its lexeme, which has no blank. -/
theorem Piece.getLast?_flatMap_chars_ne_blank (pieces : List Piece) :
    (pieces.flatMap chars).getLast? ≠ some ' ' := by
  induction pieces with
  | nil => nofun
  | cons a pieces ih =>
    intro hlast
    rw [List.flatMap_cons, List.getLast?_append] at hlast
    rcases Option.or_eq_some_iff.1 hlast with hrest | ⟨_, hpiece⟩
    · exact ih hrest
    · rw [chars, List.getLast?_append_of_ne_nil _ a.lexeme.chars_ne_nil] at hpiece
      cases a.lexeme.isLexical_of_mem (List.mem_of_getLast? hpiece)

namespace TokenStream

theorem drain_cons {s s' last : TokenStream} {item : Item} {items : List Item}
    (h : s.next? = some (item, s')) (hrest : s'.drain = (items, last)) :
    s.drain = (item :: items, last) := by
  rw [drain_of_next?_some h, TokenStream.items, drained, hrest]

/-- **A run lays pieces next to each other.**  They cover the text, or they end at `stop`, where the
call that fails starts; it skips the blanks that stand there. -/
theorem exists_tiling (text : List Char) (position : Nat) :
    ∃ (pieces : List Piece) (tokens : List Item) (n : Nat) (left : List Char) (stop : Nat),
      text = pieces.flatMap Piece.chars ++ (spaces n ++ left) ∧ Tiles position pieces tokens ∧
      stop = position + (pieces.flatMap Piece.chars).length ∧
      ((drain ⟨text, position, false⟩ = (tokens, ⟨left, stop, false⟩) ∧ n = 0 ∧ left = []) ∨
        (drain ⟨text, position, false⟩
            = (tokens ++ [.malformed (stop + n)], ⟨left, stop + n, true⟩) ∧
          left.head? ≠ some ' ')) := by
  induction text using streamInduction generalizing position with
  | nil =>
    refine ⟨[], [], 0, [], position, rfl, .nil position, rfl, .inl ⟨?_, rfl, rfl⟩⟩
    exact drain_of_next?_none (next?_nil position false)
  | token k lexeme rest t hscan ih =>
    obtain ⟨l, hchars, ht⟩ := Lexeme.exists_of_scan? hscan
    rw [List.take_left] at hchars
    subst hchars
    have hnext := next?_token k position hscan
    rw [List.drop_left] at hnext
    -- The run over the rest starts where this piece ends.
    obtain ⟨pieces, tokens, n, left, stop, htext, htiles, hstop, hrun⟩ :=
      ih (position + k + l.chars.length)
    refine ⟨⟨k, l⟩ :: pieces, .token (position + k) t :: tokens, n, left, stop, ?_, ?_, ?_, ?_⟩
    · simp [Piece.chars, htext]
    · apply Tiles.cons (Lexeme.denotes_iff.2 ht)
      simpa [Piece.chars, spaces, Nat.add_assoc] using htiles
    · simpa [Piece.chars, spaces, Nat.add_assoc] using hstop
    · rcases hrun with ⟨hdrain, hend⟩ | ⟨hdrain, hleft⟩
      · exact .inl ⟨drain_cons hnext hdrain, hend⟩
      · exact .inr ⟨drain_cons hnext hdrain, hleft⟩
  | malformed k body hne hhead hscan =>
    refine ⟨[], [], k, body, position, rfl, .nil position, rfl, .inr ⟨?_, hhead⟩⟩
    exact drain_cons (next?_malformed k position hne hhead hscan)
      (drain_of_next?_none (next?_failed body _))

/-- The run over a term and a blank: it stands at the end of the text, and the one piece of its one
token ends before that. -/
theorem drain_trailing_blank :
    drain (ofChars "x ".toList)
      = ([.token 0 (.term ⟨.one, .one⟩), .malformed 2], ⟨[], 2, true⟩) ∧
    ¬ ∃ pieces, Tiles 0 pieces [.token 0 (.term ⟨.one, .one⟩)] ∧
      String.ofList (pieces.flatMap Piece.chars) = "x " := by
  refine ⟨by decide +kernel, ?_⟩
  rintro ⟨pieces, _, htext⟩
  apply Piece.getLast?_flatMap_chars_ne_blank pieces
  rw [← String.toList_ofList (l := pieces.flatMap Piece.chars), htext]
  rfl

/-- **Maximal munch.**  The pieces of the tokens lie next to each other, from the start of the text to
the place `stop` where the last token ends.  Without a failure that is the end of the text, and the
stream stands at the length of the text in bytes; else the next call skips the blanks that stand there
and fails behind them.  And wherever a stream stands, its next item is that of the longest form. -/
theorem exists_tiling_and_nextIsLongest (text : String) :
    (∃ (pieces : List Piece) (tokens : List Item) (n : Nat) (left : List Char) (stop : Nat),
      text.toList = pieces.flatMap Piece.chars ++ (spaces n ++ left) ∧ Tiles 0 pieces tokens ∧
      stop = (String.ofList (pieces.flatMap Piece.chars)).utf8ByteSize ∧
      ((drain (ofChars text.toList) = (tokens, ⟨left, stop, false⟩) ∧
          n = 0 ∧ left = [] ∧ stop = text.utf8ByteSize) ∨
        (drain (ofChars text.toList)
            = (tokens ++ [.malformed (stop + n)], ⟨left, stop + n, true⟩) ∧
          left.head? ≠ some ' '))) ∧
    ∀ (n position : Nat) (body : List Char), body.head? ≠ some ' ' → spaces n ++ body ≠ [] →
      NextIsLongest n position body := by
  refine ⟨?_, fun n position body hhead hne => nextIsLongest n position hhead hne⟩
  obtain ⟨pieces, tokens, n, left, stop, htext, htiles, hstop, hrun⟩ :=
    exists_tiling text.toList 0
  -- What is covered has one byte for each character.
  have hbytes : stop = (String.ofList (pieces.flatMap Piece.chars)).utf8ByteSize := by
    rw [utf8ByteSize_ofList_of_isLexical, hstop, Nat.zero_add]
    intro c hc
    obtain ⟨a, _, hmem⟩ := List.mem_flatMap.1 hc
    exact Piece.isLexical_of_mem hmem
  refine ⟨pieces, tokens, n, left, stop, htext, htiles, hbytes, ?_⟩
  rcases hrun with ⟨hdrain, rfl, rfl⟩ | hfail
  · refine .inl ⟨hdrain, rfl, rfl, ?_⟩
    rw [hbytes, ← String.ofList_toList (s := text), htext]
    simp [spaces]
  · exact .inr hfail

end TokenStream

/-- The variable with an exponent of twenty nines, which is out of range. -/
def Lexeme.farPower : Lexeme :=
  .term (.bare (.raised ⟨false, ⟨List.replicate 20 '9', by decide, by simp⟩⟩))

/-- Behind `3x` and two blanks: the variable alone is taken, and the stream fails behind it. -/
theorem TokenStream.nextIsLongest_farPower :
    Lexeme.farPower.chars.head? ≠ some ' ' ∧ spaces 2 ++ Lexeme.farPower.chars ≠ [] ∧
      Lexeme.farPower.IsLongest Lexeme.farPower.chars ∧
      Lexeme.farPower.CoefficientInRange ∧ ¬ Lexeme.farPower.ExponentInRange ∧
      next? ⟨spaces 2 ++ Lexeme.farPower.chars, 2, false⟩
        = some (.token 4 (.term ⟨.one, .one⟩), ⟨'^' :: List.replicate 20 '9', 5, false⟩) ∧
      next? ⟨'^' :: List.replicate 20 '9', 5, false⟩
        = some (.malformed 5, ⟨'^' :: List.replicate 20 '9', 5, true⟩) := by
  have hhead : Lexeme.farPower.chars.head? ≠ some ' ' := by decide
  have hne : spaces 2 ++ Lexeme.farPower.chars ≠ [] := by decide
  have hlongest : Lexeme.farPower.IsLongest Lexeme.farPower.chars :=
    ⟨List.prefix_refl _, fun _ hprefix => hprefix.length_le⟩
  have hrange : ¬ Lexeme.farPower.ExponentInRange := by
    show ¬ (PowerForm.raised ⟨false, ⟨List.replicate 20 '9', _, _⟩⟩).InRange
    decide +kernel
  have hvariable : next? ⟨spaces 2 ++ Lexeme.farPower.chars, 2, false⟩
      = some (.token 4 (.term ⟨.one, .one⟩), ⟨'^' :: List.replicate 20 '9', 5, false⟩) := by
    decide +kernel
  have hnext := (exists_tiling_and_nextIsLongest "3x  x^99999999999999999999").2 2 2 _ hhead hne
  obtain ⟨c, _, left, _, _, htoken, hfail⟩ := hnext.cut _ hlongest trivial hrange
  cases hvariable.symm.trans htoken
  exact ⟨hhead, hne, hlongest, trivial, hrange, htoken, hfail⟩

end PowerRule
