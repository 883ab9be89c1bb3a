import PowerRule.Proofs.Items

/-!
Calls: a stream that is asked for one item after the other.

A call gives the next item and moves the stream on; a stream that has no item left stays where it is.
So a call is one step along the list of the items,

    s.call.1 = s.items.head?        s.call.2.items = s.items.tail

and what call number `n` gives is item number `n`, or nothing from the last item on (`result_eq`).

What a call can do is said once, in `call_cases`: nothing, or take a lexeme with the blanks before it,
or fail behind the blanks.  From it follow

* `KeepsTo.call`: a stream stands in its text, between two characters, with nothing behind it but the
  characters of lexemes and blanks;
* `CallsEnd`: tokens move the stream forward, and a failure is the last item.

Where a seam stands behind a text that can be taken to its end, the calls for the text leave the stream
at the seam (`Spells.afterCalls_append`).

Main statements: `TokenStream.calls_keepTo`, `TokenStream.items_append_seam`.
-/

namespace PowerRule

namespace TokenStream

/-! ### One call -/

/-- What a call gives, and the stream after it. -/
def call (s : TokenStream) : Option Item × TokenStream :=
  match s.next? with
  | none => (none, s)
  | some (item, s') => (some item, s')

variable {s s' : TokenStream} {item : Item}

theorem call_of_next?_none (h : s.next? = none) : s.call = (none, s) := by
  simp only [call, h]

theorem call_of_next?_some (h : s.next? = some (item, s')) : s.call = (some item, s') := by
  simp only [call, h]

/-- A call gives the first item that is left. -/
theorem fst_call (s : TokenStream) : s.call.1 = s.items.head? := by
  cases h : s.next? with
  | none => rw [call_of_next?_none h, items_of_next?_none h, List.head?_nil]
  | some p => rw [call_of_next?_some h, items_of_next?_some h, List.head?_cons]

/-- It leaves the others. -/
theorem items_call (s : TokenStream) : s.call.2.items = s.items.tail := by
  cases h : s.next? with
  | none => rw [call_of_next?_none h, items_of_next?_none h, List.tail_nil]
  | some p => rw [call_of_next?_some h, items_of_next?_some h, List.tail_cons]

/-- **A call gives nothing, or takes a lexeme behind its blanks, or fails behind them.** -/
theorem call_cases (s : TokenStream) :
    s.call = (none, s) ∨
    (∃ (n : Nat) (l : Lexeme) (rest : List Char) (t : Token),
      s.rest = spaces n ++ (l.chars ++ rest) ∧ 0 < l.chars.length ∧
      s.call = (some (.token (s.position + n) t),
        ⟨rest, s.position + n + l.chars.length, false⟩)) ∨
    ∃ (n : Nat) (body : List Char), s.rest = spaces n ++ body ∧
      s.call = (some (.malformed (s.position + n)), ⟨body, s.position + n, true⟩) := by
  obtain ⟨text, position, failed⟩ := s
  cases failed with
  | true => exact .inl (call_of_next?_none (next?_failed text position))
  | false =>
    obtain ⟨n, body, rfl, hhead⟩ := exists_spaces_append text
    by_cases hne : spaces n ++ body = []
    · rw [hne]
      exact .inl (call_of_next?_none (next?_nil position false))
    · -- Behind the blanks stands a token, or the call fails there.
      cases hscan : Token.scan? body with
      | none =>
        have hnext := next?_malformed n position hne hhead hscan
        exact .inr (.inr ⟨n, body, rfl, call_of_next?_some hnext⟩)
      | some p =>
        obtain ⟨t, width⟩ := p
        obtain ⟨l, hchars, _⟩ := Lexeme.exists_of_scan? hscan
        have hwidth := Token.scan?_width hscan
        have hlength : l.chars.length = width := by rw [hchars, List.length_take_of_le hwidth.2]
        refine .inr (.inl ⟨n, l, body.drop width, t, ?_, by omega, ?_⟩)
        · rw [hchars, List.take_append_drop]
        · rw [hlength]
          exact call_of_next?_some (next?_token n position hscan)

/-! ### A number of calls -/

/-- The stream after so many calls. -/
def afterCalls (s : TokenStream) : Nat → TokenStream
  | 0 => s
  | n + 1 => (s.afterCalls n).call.2

/-- What the call gives before which there were so many. -/
def result (s : TokenStream) (n : Nat) : Option Item := (s.afterCalls n).call.1

/-- The first call can be taken alone. -/
theorem afterCalls_succ (s : TokenStream) (n : Nat) :
    s.afterCalls (n + 1) = s.call.2.afterCalls n := by
  induction n with
  | zero => rfl
  | succ n ih => exact congrArg (fun r : TokenStream => r.call.2) ih

theorem items_afterCalls (s : TokenStream) (n : Nat) :
    (s.afterCalls n).items = s.items.drop n := by
  induction n with
  | zero => rfl
  | succ n ih => rw [afterCalls, items_call, ih, List.tail_drop]

/-- **The calls give the items in their order**, and nothing behind them. -/
theorem result_eq (s : TokenStream) (n : Nat) : s.result n = s.items[n]? := by
  rw [result, fst_call, items_afterCalls, List.head?_drop]

theorem filterMap_result (s : TokenStream) (n : Nat) :
    (List.range n).filterMap s.result = s.items.take n := by
  induction n with
  | zero => rfl
  | succ n ih =>
    rw [List.range_succ, List.filterMap_append, ih, List.take_add_one, ← result_eq]
    cases h : s.result n <;> simp [h]

/-! ### How the calls of a stream end -/

/-- A stream whose call changes nothing stays as it is. -/
theorem afterCalls_of_call_eq (h : s.call = (none, s)) (n : Nat) : s.afterCalls n = s := by
  induction n with
  | zero => rfl
  | succ n ih => rw [afterCalls, ih, h]

theorem afterCalls_add (s : TokenStream) (m n : Nat) :
    s.afterCalls (m + n) = (s.afterCalls m).afterCalls n := by
  induction n with
  | zero => rfl
  | succ n ih => exact congrArg (fun r : TokenStream => r.call.2) ih

/-- A token moves the stream forward. -/
theorem position_lt_of_call {start : Nat} {t : Token} (h : s.call.1 = some (.token start t)) :
    s.position < s.call.2.position := by
  rcases s.call_cases with hcall | ⟨n, l, rest, u, _, hpos, hcall⟩ | ⟨n, body, _, hcall⟩
  · rw [hcall] at h
    cases h
  · rw [hcall]
    dsimp only
    omega
  · rw [hcall] at h
    cases h

/-- A failure is where the stream stands, and from there on it does not move. -/
theorem call_of_malformed {offset : Nat} (h : s.call.1 = some (.malformed offset)) :
    s.call.2.position = offset ∧ s.call.2.call = (none, s.call.2) := by
  rcases s.call_cases with hcall | ⟨n, l, rest, u, _, _, hcall⟩ | ⟨n, body, _, hcall⟩
  · rw [hcall] at h
    cases h
  · rw [hcall] at h
    cases h
  · rw [hcall] at h ⊢
    cases h
    exact ⟨rfl, call_of_next?_none (next?_failed body _)⟩

/-- How the calls of a stream go on and come to an end. -/
structure CallsEnd (s : TokenStream) : Prop where
  /-- A call that gives a token moves the stream forward. -/
  position_lt : ∀ n start t, s.result n = some (.token start t) →
    (s.afterCalls n).position < (s.afterCalls (n + 1)).position
  /-- There is one failure at most. -/
  malformed_unique : ∀ m n offset offset', s.result m = some (.malformed offset) →
    s.result n = some (.malformed offset') → m = n
  /-- It says where the stream stands after the call; no call behind it gives anything or moves the
  stream. -/
  malformed_last : ∀ n offset, s.result n = some (.malformed offset) →
    (s.afterCalls (n + 1)).position = offset ∧
      ∀ k, n < k → s.result k = none ∧ (s.afterCalls (k + 1)).position = offset
  /-- A stream without a next item never has one again. -/
  none_forever : ∀ n, s.result n = none → ∀ k, n ≤ k → s.result k = none

theorem result_of_malformed {n offset : Nat} (h : s.result n = some (.malformed offset)) {k : Nat}
    (hk : n < k) : s.result k = none ∧ s.afterCalls (k + 1) = s.afterCalls (n + 1) := by
  obtain ⟨_, hstop⟩ := call_of_malformed h
  have hstay : ∀ j, s.afterCalls (n + 1 + j) = s.afterCalls (n + 1) := by
    intro j
    rw [afterCalls_add]
    exact afterCalls_of_call_eq hstop j
  obtain ⟨j, rfl⟩ := Nat.exists_eq_add_of_le hk
  refine ⟨?_, hstay (j + 1)⟩
  rw [result, hstay j]
  exact congrArg Prod.fst hstop

theorem callsEnd (s : TokenStream) : s.CallsEnd where
  position_lt := fun _ _ _ h => position_lt_of_call h
  malformed_unique := by
    intro m n offset offset' hm hn
    rcases Nat.lt_trichotomy m n with hlt | heq | hgt
    · rw [(result_of_malformed hm hlt).1] at hn
      cases hn
    · exact heq
    · rw [(result_of_malformed hn hgt).1] at hm
      cases hm
  malformed_last := by
    intro n offset h
    have hposition := (call_of_malformed h).1
    refine ⟨hposition, fun k hk => ?_⟩
    obtain ⟨hnone, hstay⟩ := result_of_malformed h hk
    exact ⟨hnone, by rw [hstay]; exact hposition⟩
  none_forever := by
    intro n h k hk
    rw [result_eq, List.getElem?_eq_none_iff] at h ⊢
    exact Nat.le_trans h hk

/-- Each item takes a character at least. -/
theorem length_items_le (text : List Char) (position : Nat) :
    (items ⟨text, position, false⟩).length ≤ text.length := by
  induction text using streamInduction generalizing position with
  | nil =>
    rw [items_nil]
    exact Nat.le_refl 0
  | token n lexeme rest t hscan ih =>
    have hwidth := (Token.scan?_width hscan).1
    have hrest := ih (position + n + lexeme.length)
    rw [items_lexeme n position hscan]
    simp only [List.length_cons, List.length_append]
    omega
  | malformed n body hne hhead hscan =>
    rw [items_malformed n position hne hhead hscan]
    exact List.length_pos_iff.2 hne

/-! ### Where a stream stands -/

/-- The characters that a stream can leave behind. -/
def takenChars : String := "0123456789.x^+- "

/-- The stream stands between two characters of the text, and behind it are no others than those that
tokens and blanks are written with. -/
structure KeepsTo (s : TokenStream) (text : String) : Prop where
  position_le : s.position ≤ text.utf8ByteSize
  isValid : String.Pos.Raw.IsValid text ⟨s.position⟩
  /-- What is left is the slice from there on. -/
  rest_eq : text.toByteArray.extract s.position text.utf8ByteSize = (String.ofList s.rest).toByteArray
  mem_takenChars : ∀ b ∈ (text.toByteArray.extract 0 s.position).data,
    b ∈ takenChars.toByteArray.data

/-- What is left stands in the text behind this part of it. -/
structure HasTaken (s : TokenStream) (taken text : List Char) : Prop where
  text_eq : text = taken ++ s.rest
  position_eq : s.position = (String.ofList taken).utf8ByteSize
  isLexical_or_blank : ∀ c ∈ taken, isLexical c = true ∨ c = ' '

theorem hasTaken_ofChars (text : List Char) : (ofChars text).HasTaken [] text where
  text_eq := rfl
  position_eq := rfl
  isLexical_or_blank := nofun

/-- Where blanks and lexemes are left behind, the stream moves by as many bytes. -/
theorem HasTaken.append {taken more rest text : List Char} (h : s.HasTaken taken text)
    (hrest : s.rest = more ++ rest) (hmore : ∀ c ∈ more, isLexical c = true ∨ c = ' ')
    (failed : Bool) :
    HasTaken ⟨rest, s.position + more.length, failed⟩ (taken ++ more) text where
  text_eq := by rw [h.text_eq, hrest, List.append_assoc]
  position_eq := by
    rw [String.ofList_append, String.utf8ByteSize_append, ← h.position_eq,
      utf8ByteSize_ofList_of_isLexical hmore]
  isLexical_or_blank := List.forall_mem_append.2 ⟨h.isLexical_or_blank, hmore⟩

/-- A call leaves blanks behind, and a lexeme if it gives a token. -/
theorem HasTaken.call {taken text : List Char} (h : s.HasTaken taken text) :
    ∃ more, s.call.2.HasTaken (taken ++ more) text := by
  have hblank : ∀ n, ∀ c ∈ spaces n, isLexical c = true ∨ c = ' ' :=
    fun n c hc => .inr (List.eq_of_mem_replicate hc)
  have hlength : ∀ n, (spaces n).length = n := fun n => List.length_replicate
  rcases s.call_cases with hcall | ⟨n, l, rest, t, hrest, _, hcall⟩ | ⟨n, body, hrest, hcall⟩
  · refine ⟨[], ?_⟩
    rw [hcall, List.append_nil]
    exact h
  · have hmore : ∀ c ∈ spaces n ++ l.chars, isLexical c = true ∨ c = ' ' :=
      List.forall_mem_append.2 ⟨hblank n, fun c hc => .inl (l.isLexical_of_mem hc)⟩
    have hnext := h.append (by rw [hrest, List.append_assoc]) hmore false
    rw [List.length_append, hlength, ← Nat.add_assoc] at hnext
    refine ⟨spaces n ++ l.chars, ?_⟩
    rw [hcall]
    exact hnext
  · have hnext := h.append hrest (hblank n) true
    rw [hlength] at hnext
    refine ⟨spaces n, ?_⟩
    rw [hcall]
    exact hnext

theorem exists_hasTaken (text : List Char) (n : Nat) :
    ∃ taken, ((ofChars text).afterCalls n).HasTaken taken text := by
  -- Along the calls: what is behind the stream grows by what one call takes.
  induction n with
  | zero => exact ⟨[], hasTaken_ofChars text⟩
  | succ n ih =>
    obtain ⟨taken, h⟩ := ih
    obtain ⟨more, hnext⟩ := h.call
    exact ⟨taken ++ more, hnext⟩

/-- The characters of lexemes and the blank are the ones of the list. -/
theorem mem_takenChars {c : Char} (h : isLexical c = true ∨ c = ' ') : c ∈ takenChars.toList := by
  have hlist : takenChars.toList = (List.range 10).map (fun k => Char.ofNat ('0'.toNat + k))
      ++ ['.', 'x', '^', '+', '-', ' '] := by decide
  rw [hlist]
  simp only [isLexical, isTermChar, Bool.or_eq_true, beq_iff_eq] at h
  rcases h with (((((hdigit | rfl) | rfl) | rfl) | rfl) | rfl) | rfl
  · obtain ⟨hzero, hnine⟩ := Char.isDigit_iff_toNat.1 hdigit
    have hbounds : '9'.toNat = '0'.toNat + 9 := rfl
    apply List.mem_append_left
    refine List.mem_map.2 ⟨c.toNat - '0'.toNat, List.mem_range.2 (by omega), ?_⟩
    rw [Nat.add_sub_of_le hzero, c.ofNat_toNat]
  all_goals simp

/-- The bytes of a text are those of its characters. -/
theorem mem_data_ofList {text : List Char} {b : UInt8} :
    b ∈ (String.ofList text).toByteArray.data ↔ ∃ c ∈ text, b ∈ String.utf8EncodeChar c := by
  rw [String.toByteArray_ofList, List.utf8Encode, List.data_toByteArray, List.mem_toArray,
    List.mem_flatMap]

theorem HasTaken.keepsTo {taken : List Char} {text : String} (h : s.HasTaken taken text.toList) :
    s.KeepsTo text := by
  have htext : text = String.ofList taken ++ String.ofList s.rest := by
    rw [← String.ofList_append, ← h.text_eq, String.ofList_toList]
  have hsize : s.position = (String.ofList taken).toByteArray.size := by
    rw [String.size_toByteArray, h.position_eq]
  have hbytes : text.toByteArray
      = (String.ofList taken).toByteArray ++ (String.ofList s.rest).toByteArray := by
    rw [htext, String.toByteArray_append]
  have hvalid : String.Pos.Raw.IsValid text ⟨s.position⟩ :=
    String.Pos.Raw.isValid_iff_exists_append.2 ⟨_, _, htext, by rw [h.position_eq]; rfl⟩
  refine ⟨hvalid.le_utf8ByteSize, hvalid, ?_, ?_⟩
  · rw [hbytes, ← String.size_toByteArray, hbytes, ByteArray.size_append]
    exact ByteArray.extract_append_eq_right hsize rfl
  · intro b hb
    rw [hbytes, ByteArray.extract_append_eq_left hsize, mem_data_ofList] at hb
    obtain ⟨c, hc, hbyte⟩ := hb
    rw [← String.ofList_toList (s := takenChars), mem_data_ofList]
    exact ⟨c, mem_takenChars (h.isLexical_or_blank c hc), hbyte⟩

end TokenStream

/-- A text has a byte for each character at least. -/
theorem length_le_utf8ByteSize (text : List Char) :
    text.length ≤ (String.ofList text).utf8ByteSize := by
  induction text with
  | nil => exact Nat.zero_le _
  | cons c tail ih =>
    have hpos := c.utf8Size_pos
    rw [String.ofList_cons, String.utf8ByteSize_append, String.utf8ByteSize_singleton,
      List.length_cons]
    omega

namespace TokenStream

theorem length_items_ofChars_le (text : String) :
    (ofChars text.toList).items.length ≤ text.utf8ByteSize := by
  have hbytes := length_le_utf8ByteSize text.toList
  rw [String.ofList_toList] at hbytes
  exact Nat.le_trans (length_items_le text.toList 0) hbytes

/-- **A stream keeps to its text and comes to an end.**  However often it is called, it stands between
two characters of the text and has left behind nothing but lexemes and blanks; tokens move it forward,
and a failure is the last item.  It gives no more items than the text has bytes, and these are all. -/
theorem calls_keepTo (text : String) :
    (∀ n, ((ofChars text.toList).afterCalls n).KeepsTo text) ∧
    (ofChars text.toList).CallsEnd ∧
    (∀ n, ((List.range n).filterMap (ofChars text.toList).result).length ≤ text.utf8ByteSize) ∧
    ∀ n, text.utf8ByteSize ≤ n →
      (List.range n).filterMap (ofChars text.toList).result = (ofChars text.toList).items := by
  have hlength := length_items_ofChars_le text
  refine ⟨fun n => ?_, callsEnd _, fun n => ?_, fun n hn => ?_⟩
  · obtain ⟨taken, h⟩ := exists_hasTaken text.toList n
    exact h.keepsTo
  · rw [filterMap_result]
    exact Nat.le_trans (List.length_take_le' n _) hlength
  · rw [filterMap_result]
    exact List.take_of_length_le (Nat.le_trans hlength hn)

/-- The failing call skips the blanks before the letter, and there the stream stays. -/
theorem calls_keepTo_accent :
    (ofChars "2x  \u00e9".toList).result 1 = some (.malformed 4) ∧
    ∀ k, 1 < k → (ofChars "2x  \u00e9".toList).result k = none ∧
      ((ofChars "2x  \u00e9".toList).afterCalls (k + 1)).position = 4 := by
  have hfailure : (ofChars "2x  \u00e9".toList).result 1 = some (.malformed 4) := by
    decide +kernel
  obtain ⟨_, hends, _⟩ := calls_keepTo "2x  \u00e9"
  exact ⟨hfailure, (hends.malformed_last 1 4 hfailure).2⟩

end TokenStream

/-! ### Calls across a seam -/

theorem length_of_tokensOf {items : List Item} {tokens : List Token}
    (h : tokensOf items = .ok tokens) : items.length = tokens.length := by
  induction items generalizing tokens with
  | nil =>
    cases h
    rfl
  | cons item items ih =>
    cases item with
    | malformed offset => cases h
    | token start t =>
      rw [tokensOf_token] at h
      obtain ⟨others, htail, rfl⟩ := exists_of_map_eq_ok h
      rw [List.length_cons, List.length_cons, ih htail]

/-- **The calls for a text that spells something leave the stream at the seam behind it.** -/
theorem Spells.afterCalls_append {text rest : List Char} {tokens : List Token}
    (h : Spells text tokens) (hr : Seam rest) (position : Nat) :
    TokenStream.afterCalls ⟨text ++ rest, position, false⟩ tokens.length
      = ⟨rest, position + text.length, false⟩ := by
  induction h generalizing position with
  | nil => rfl
  | cons n hscan htail ih =>
    next lexeme left t tokens =>
    have hnext := TokenStream.next?_token n position (scan?_append_seam hscan htail hr)
    rw [List.drop_left] at hnext
    rw [List.length_cons, TokenStream.afterCalls_succ, List.append_assoc, List.append_assoc,
      TokenStream.call_of_next?_some hnext, ih]
    simp [spaces, Nat.add_assoc]

namespace TokenStream

/-- A stream without a failure is a text that spells something. -/
theorem exists_spells_of_not_malformed {text : List Char} {position : Nat}
    (h : ∀ offset, Item.malformed offset ∉ items ⟨text, position, false⟩) :
    ∃ tokens, Spells text tokens ∧ (items ⟨text, position, false⟩).length = tokens.length := by
  have hnone : failure? ⟨text, position, false⟩ = none := by
    rw [failure?, List.findSome?_eq_none_iff]
    intro item hitem
    cases item with
    | token start t => rfl
    | malformed offset => exact absurd hitem (h offset)
  have htokens := tokensOf_items_of_no_failure hnone
  exact ⟨_, spells_of_tokensOf_items position htokens, length_of_tokensOf htokens⟩

theorem seam_of_blank_or_sign {rest : List Char}
    (h : ∀ c ∈ rest.head?, c = ' ' ∨ c = '+' ∨ c = '-') : Seam rest := by
  intro c hc
  rcases h c hc with rfl | rfl | rfl
  all_goals rfl

/-- **At a blank or a sign two texts are taken one after the other.**  If the first one can be taken to
its end, its items come first, those of the second one follow as many bytes later as the first one is
long, and in between the stream stands at the second text. -/
theorem items_append_seam {a b : String}
    (ha : ∀ offset, Item.malformed offset ∉ (ofChars a.toList).items)
    (hb : ∀ c ∈ b.toList.head?, c = ' ' ∨ c = '+' ∨ c = '-') :
    (ofChars (a ++ b).toList).items
      = (ofChars a.toList).items ++ (ofChars b.toList).items.map (Item.shift a.utf8ByteSize) ∧
    (ofChars (a ++ b).toList).afterCalls (ofChars a.toList).items.length
      = ⟨b.toList, a.utf8ByteSize, false⟩ := by
  obtain ⟨tokens, hspells, hlength⟩ := exists_spells_of_not_malformed ha
  have hseam := seam_of_blank_or_sign hb
  have hbytes := hspells.utf8ByteSize_ofList
  rw [String.ofList_toList] at hbytes
  have hshift := items_shift b.toList 0 a.utf8ByteSize
  rw [String.toList_append]
  constructor
  · rw [ofChars, hspells.items_append hseam, ← hbytes, hshift]
    rfl
  · rw [show (ofChars a.toList).items.length = tokens.length from hlength, ofChars,
      hspells.afterCalls_append hseam, ← hbytes, Nat.zero_add]

/-- An operator at the end of the first text, and a failure in the second one. -/
theorem items_append_seam_operator :
    (∀ offset, Item.malformed offset ∉ (ofChars "2x^3 -".toList).items) ∧
    (∀ c ∈ " x*".toList.head?, c = ' ' ∨ c = '+' ∨ c = '-') ∧
    (ofChars ("2x^3 -" ++ " x*").toList).items
      = (ofChars "2x^3 -".toList).items
        ++ [.token (1 + 6) (.term ⟨.one, .one⟩), .malformed (2 + 6)] ∧
    (ofChars ("2x^3 -" ++ " x*").toList).afterCalls 2 = ⟨" x*".toList, 6, false⟩ := by
  have hitems : (ofChars "2x^3 -".toList).items
      = [.token 0 (.term ⟨.ofInt 2, ⟨3, by decide, by decide⟩⟩), .token 5 (.operator .minus)] := by
    decide +kernel
  have hothers : (ofChars " x*".toList).items = [.token 1 (.term ⟨.one, .one⟩), .malformed 2] := by
    decide +kernel
  have ha : ∀ offset, Item.malformed offset ∉ (ofChars "2x^3 -".toList).items := by
    intro offset
    rw [hitems]
    simp
  have hb : ∀ c ∈ " x*".toList.head?, c = ' ' ∨ c = '+' ∨ c = '-' := by simp
  obtain ⟨hwhole, hseam⟩ := items_append_seam ha hb
  rw [hothers] at hwhole
  rw [hitems] at hseam
  exact ⟨ha, hb, hwhole, hseam⟩

end TokenStream

end PowerRule
