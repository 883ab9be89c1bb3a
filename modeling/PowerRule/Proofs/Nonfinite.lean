import PowerRule.Proofs.Written

/-!
Where reading stops at a number that is not finite.

Infinities and what is not a number are written with letters that no token starts with.  They stand
behind their sign, if it is written, and the sign is a seam.  So whatever is before them is read as it
was written, and the stream fails at the first letter:

    u₁ … uₙ  -inf …        the offset is the width of u₁ … uₙ and one more for the sign
    u₁ … uₙ  NaN …         there is no sign, and the offset is the width of u₁ … uₙ

What comes after them is never looked at.

Main result: `Poly.parse_text_of_first_nonfinite`, for all polynomials with such a term.
-/

namespace PowerRule

/-! ### The letters -/

/-- What is not finite is not zero, so it is written. -/
theorem Term.isZero_of_nonfinite {t : Term} (h : t.coefficient.isFinite = false) :
    t.isZero = false := by
  obtain ⟨c, e⟩ := t
  cases c with
  | finite s m => cases h
  | infinite s => rfl
  | nan => rfl

/-- Behind its sign a number that is not finite starts with a letter that no token has. -/
theorem Term.exists_size_cons_of_nonfinite {t : Term} (h : t.coefficient.isFinite = false) :
    ∃ c tail, t.size.chars = c :: tail ∧ isLexical c = false ∧ c ≠ ' ' := by
  obtain ⟨c, e⟩ := t
  cases c with
  | finite s m => cases h
  | nan => exact ⟨'N', 'a' :: 'N' :: powerChars e, rfl, rfl, by decide⟩
  | infinite s =>
    refine ⟨'i', 'n' :: 'f' :: powerChars e, ?_, rfl, by decide⟩
    cases s
    · rfl
    · rfl

namespace Poly

/-- The number of characters that the sign of a coefficient takes in a sum. -/
def signWidth (c : Coefficient) : Nat := if c = .nan then 0 else 1

/-- In a sum every sign is written, but what is not a number has none. -/
theorem signedChars_of_nonfinite {t : Term} (h : t.coefficient.isFinite = false) :
    signedChars t = (if t.coefficient = .nan then [] else [t.sign.lexeme]) ++ t.size.chars := by
  obtain ⟨c, e⟩ := t
  cases c with
  | finite s m => cases h
  | nan => rfl
  | infinite s =>
    cases s
    · rfl
    · rfl

/-- At the beginning only a minus is written. -/
theorem chars_of_nonfinite {t : Term} (h : t.coefficient.isFinite = false) :
    t.chars = t.sign.mark ++ t.size.chars := by
  obtain ⟨c, e⟩ := t
  cases c with
  | finite s m => cases h
  | nan => rfl
  | infinite s =>
    cases s
    · rfl
    · rfl

/-! ### The stream at the letters -/

section Stream

variable {t : Term} (h : t.coefficient.isFinite = false) (rest : List Char) (position : Nat)

include h

theorem items_size_of_nonfinite :
    TokenStream.items ⟨t.size.chars ++ rest, position, false⟩ = [.malformed position] := by
  obtain ⟨c, tail, hchars, hforeign, hblank⟩ := Term.exists_size_cons_of_nonfinite h
  rw [hchars, List.cons_append]
  exact TokenStream.items_foreign hforeign hblank _ position

theorem tokensOf_items_size_of_nonfinite :
    tokensOf (TokenStream.mk (t.size.chars ++ rest) position false).items
      = .error (.malformed position) := by
  rw [items_size_of_nonfinite h]
  rfl

theorem tokensOf_items_operator_of_nonfinite (s : Sign) :
    tokensOf (TokenStream.mk (s.lexeme :: (t.size.chars ++ rest)) position false).items
      = .error (.malformed (position + 1)) := by
  rw [TokenStream.items_operator, items_size_of_nonfinite h]
  rfl

/-- In a sum the stream fails behind the sign. -/
theorem tokensOf_items_of_nonfinite :
    tokensOf (TokenStream.mk (signedChars t ++ rest) position false).items
      = .error (.malformed (position + signWidth t.coefficient)) := by
  rw [signedChars_of_nonfinite h, signWidth]
  split
  · exact tokensOf_items_size_of_nonfinite h rest position
  · exact tokensOf_items_operator_of_nonfinite h rest position t.sign

/-- At the beginning a plus is left out, and there the stream fails at once. -/
theorem tokensOf_items_first_of_nonfinite :
    tokensOf (TokenStream.mk (t.chars ++ rest) 0 false).items
      = .error (.malformed t.sign.mark.length) := by
  rw [chars_of_nonfinite h]
  cases t.sign with
  | plus => exact tokensOf_items_size_of_nonfinite h rest 0
  | minus => exact tokensOf_items_operator_of_nonfinite h rest 0 .minus

end Stream

/-! ### Everything before the letters is read -/

variable {before after : Poly} {t : Term}

theorem nonzero_append_cons (before after : Poly) (ht : t.coefficient.isFinite = false) :
    nonzero (before ++ t :: after) = before.nonzero ++ t :: after.nonzero := by
  have hkeep : (!t.isZero) = true := by
    rw [Term.isZero_of_nonfinite ht]
    rfl
  rw [nonzero_append]
  exact congrArg (before.nonzero ++ ·) (List.filter_cons_of_pos hkeep)

/-- Where no term is written before it, the text fails behind its minus, if it has one. -/
theorem parse_text_of_nonfinite_first (ht : t.coefficient.isFinite = false)
    (hnil : before.nonzero = []) :
    parse (text (before ++ t :: after)) = .error (.malformed t.sign.mark.length) := by
  have hnonzero := nonzero_append_cons before after ht
  rw [hnil, List.nil_append] at hnonzero
  rw [parse_text, chars_of_nonzero_cons hnonzero]
  exact parseChars_of_error (tokensOf_items_first_of_nonfinite ht _)

/-- Where finite terms are written before it, the text fails behind them and its sign. -/
theorem parse_text_of_nonfinite_behind (hbefore : ∀ u ∈ before, u.coefficient.isFinite = true)
    (ht : t.coefficient.isFinite = false) (hne : before.nonzero ≠ []) :
    parse (text (before ++ t :: after))
      = .error (.malformed (before.text.utf8ByteSize + signWidth t.coefficient)) := by
  obtain ⟨u, q, hq⟩ := List.exists_cons_of_ne_nil hne
  have hproper := isProper_nonzero hbefore
  rw [hq] at hproper
  obtain ⟨tokens, hspells, _⟩ := exists_spells_first hproper
  rw [← chars_of_nonzero_cons hq] at hspells
  have hnonzero := nonzero_append_cons before after ht
  rw [hq, List.cons_append] at hnonzero
  -- The text before the term is read to its end, and the sign of the term is a seam behind it.
  have hseam := seam_signedChars (Term.isZero_of_nonfinite ht) (after.nonzero.flatMap signedChars)
  have hchars : chars (before ++ t :: after)
      = before.chars ++ (signedChars t ++ after.nonzero.flatMap signedChars) := by
    rw [chars_of_nonzero_cons hnonzero, chars_of_nonzero_cons hq, List.flatMap_append,
      List.flatMap_cons, List.append_assoc]
  rw [parse_text, hchars, text, hspells.utf8ByteSize_ofList]
  apply parseChars_of_error
  rw [hspells.items_append hseam, tokensOf_append, hspells.tokensOf_items,
    tokensOf_items_of_nonfinite ht, Nat.zero_add]
  rfl

/-! ### The first number that is not finite -/

/-- A polynomial is finite up to its first term that is not. -/
theorem exists_split_of_nonfinite {p : Poly} (h : ∃ t ∈ p, t.coefficient.isFinite = false) :
    ∃ (before : Poly) (t : Term) (after : Poly), p = before ++ t :: after ∧
      t.coefficient.isFinite = false ∧ ∀ u ∈ before, u.coefficient.isFinite = true := by
  induction p with
  | nil =>
    obtain ⟨t, ht, _⟩ := h
    cases ht
  | cons u p ih =>
    cases hu : u.coefficient.isFinite with
    | false => exact ⟨[], u, p, rfl, hu, List.forall_mem_nil _⟩
    | true =>
      have htail : ∃ t ∈ p, t.coefficient.isFinite = false := by
        obtain ⟨t, ht, hbad⟩ := h
        rcases List.mem_cons.1 ht with rfl | hmem
        · rw [hu] at hbad
          cases hbad
        · exact ⟨t, hmem, hbad⟩
      obtain ⟨before, t, after, rfl, hbad, hbefore⟩ := ih htail
      exact ⟨u :: before, t, after, rfl, hbad, List.forall_mem_cons.2 ⟨hu, hbefore⟩⟩

/-- The number of bytes that are written for the terms before another one. -/
def writtenWidth (before : Poly) : Nat :=
  if ∃ u ∈ before, u.isZero = false then before.text.utf8ByteSize else 0

/-- The number of bytes between those and the letters of an infinity or of what is not a number: a
plus is not written at the beginning, and what is not a number has no sign. -/
def leadWidth (before : Poly) (c : Coefficient) : Nat :=
  if c = .nan ∨ (c = .infinite .plus ∧ ∀ u ∈ before, u.isZero = true) then 0 else 1

theorem forall_isZero_iff {p : Poly} : (∀ u ∈ p, u.isZero = true) ↔ p.nonzero = [] := by
  rw [nonzero, List.filter_eq_nil_iff]
  simp

theorem exists_not_isZero_iff {p : Poly} : (∃ u ∈ p, u.isZero = false) ↔ p.nonzero ≠ [] := by
  rw [ne_eq, ← forall_isZero_iff]
  simp

theorem length_mark_of_nonfinite {t : Term} (h : t.coefficient.isFinite = false) :
    t.sign.mark.length = if t.coefficient = .nan ∨ t.coefficient = .infinite .plus then 0 else 1 := by
  obtain ⟨c, e⟩ := t
  match c with
  | .finite s m => cases h
  | .nan => rfl
  | .infinite .plus => rfl
  | .infinite .minus => rfl

/-- The text fails at the letters of the term, whatever stands behind it. -/
theorem parse_text_append_of_nonfinite (hbefore : ∀ u ∈ before, u.coefficient.isFinite = true)
    (ht : t.coefficient.isFinite = false) :
    parse (text (before ++ t :: after))
      = .error (.malformed (writtenWidth before + leadWidth before t.coefficient)) := by
  by_cases hnil : before.nonzero = []
  · have hwidth : writtenWidth before = 0 := by
      rw [writtenWidth, if_neg]
      simp [exists_not_isZero_iff, hnil]
    have hlead : leadWidth before t.coefficient = t.sign.mark.length := by
      simp only [leadWidth, forall_isZero_iff, hnil, and_true, length_mark_of_nonfinite ht]
    rw [parse_text_of_nonfinite_first ht hnil, hwidth, hlead, Nat.zero_add]
  · have hwidth : writtenWidth before = before.text.utf8ByteSize := by
      rw [writtenWidth, if_pos (exists_not_isZero_iff.2 hnil)]
    have hlead : leadWidth before t.coefficient = signWidth t.coefficient := by
      simp only [leadWidth, forall_isZero_iff, hnil, and_false, or_false, signWidth]
    rw [parse_text_of_nonfinite_behind hbefore ht hnil, hwidth, hlead]

/-- A polynomial with a term that is not finite is not read back. -/
theorem parse_text_of_nonfinite {p : Poly} (h : ∃ t ∈ p, t.coefficient.isFinite = false) :
    ∃ offset, parse p.text = .error (.malformed offset) := by
  obtain ⟨before, t, after, rfl, hbad, hbefore⟩ := exists_split_of_nonfinite h
  exact ⟨_, parse_text_append_of_nonfinite hbefore hbad⟩

/-- **A polynomial that is not finite fails at its first term that is not.**  The terms before it are
read, and the offset is that of the first letter of its number, whatever follows it. -/
theorem parse_text_of_first_nonfinite {p : Poly} (h : ∃ t ∈ p, t.coefficient.isFinite = false) :
    ∃ k t, p[k]? = some t ∧ t.coefficient.isFinite = false ∧
      (∀ u ∈ p.take k, u.coefficient.isFinite = true) ∧
      parse p.text
        = .error (.malformed (writtenWidth (p.take k) + leadWidth (p.take k) t.coefficient)) := by
  obtain ⟨before, t, after, rfl, hbad, hbefore⟩ := exists_split_of_nonfinite h
  refine ⟨before.length, t, ?_, hbad, ?_, ?_⟩
  · simp
  · rw [List.take_left]
    exact hbefore
  · rw [List.take_left]
    exact parse_text_append_of_nonfinite hbefore hbad

/-- An infinity behind a power and a zero term, and behind it what is not a number. -/
def overflowing : Poly :=
  [⟨.ofInt 2, .one⟩, ⟨.zero, .zero⟩, ⟨.infinite .plus, .zero⟩, ⟨.nan, .one⟩]

/-- The text is `2x+infNaNx`, and `inf` starts at its fourth byte. -/
theorem parse_text_of_first_nonfinite_overflowing :
    (∃ t ∈ overflowing, t.coefficient.isFinite = false) ∧
      writtenWidth (overflowing.take 2) = 2 ∧
      leadWidth (overflowing.take 2) (.infinite .plus) = 1 ∧
      parse overflowing.text = .error (.malformed 3) := by
  have hbad : ∃ t ∈ overflowing, t.coefficient.isFinite = false := by decide +kernel
  have hwidth : writtenWidth (overflowing.take 2) = 2 := by decide +kernel
  have hlead : leadWidth (overflowing.take 2) (.infinite .plus) = 1 := by decide +kernel
  obtain ⟨k, t, hk, ht, hbefore, hparse⟩ := parse_text_of_first_nonfinite hbad
  refine ⟨hbad, hwidth, hlead, ?_⟩
  rcases k with - | - | - | k
  · cases hk
    exact absurd ht (by decide +kernel)
  · cases hk
    exact absurd ht (by decide +kernel)
  · cases hk
    rwa [hwidth, hlead] at hparse
  · -- The infinity is no term before the first one that is not finite.
    cases hbefore ⟨.infinite .plus, .zero⟩ (.tail _ (.tail _ (.head _)))

end Poly

end PowerRule
