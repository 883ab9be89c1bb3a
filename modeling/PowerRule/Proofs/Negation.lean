import Mathlib.Data.List.Basic
import PowerRule.Proofs.Canonical

/-!
Negation: a sign in front of a whole polynomial.

It passes through every derivative, because it passes through each product (`Term.derivative_signed`),
zeros and overflow included.

In the text it shows in front of the terms and nowhere else.  Put the first plus back that is not
written; then every term of a sum stands behind its sign, but for what is not a number, and the minus of
an exponent stands behind a `^`.  So the text of the negation can be made from the text alone
(`negatedText`): swap each sign that is not behind a `^`, and drop the plus in front, if there is one.

Main statement: `Poly.nthDerivative_negation_and_text`.
-/

namespace PowerRule

/-! ### Signs in a text -/

/-- The other sign, where the character is one. -/
def swapSign (c : Char) : Char := (Sign.ofChar? c).elim c fun s => (Sign.minus * s).lexeme

/-- A text with its signs swapped, but for those of exponents: what stands behind a `^` stays. -/
def swapSigns : List Char → List Char
  | [] => []
  | '^' :: c :: text => '^' :: c :: swapSigns text
  | c :: text => swapSign c :: swapSigns text

/-- The text of a sum with its first sign, which is not written if it is a plus. -/
def withFirstSign (text : List Char) : List Char :=
  if OwnSign text then text else Sign.plus.lexeme :: text

/-- The text of a polynomial with the sign before each of its numbers swapped. -/
def negatedText (text : String) : String :=
  if text = "0" then text else .ofList (Poly.dropPlus (swapSigns (withFirstSign text.toList)))

@[simp] theorem swapSigns_caret (c : Char) (text : List Char) :
    swapSigns ('^' :: c :: text) = '^' :: c :: swapSigns text := rfl

theorem swapSigns_cons {c : Char} (h : c ≠ '^') (text : List Char) :
    swapSigns (c :: text) = swapSign c :: swapSigns text := by
  simp [swapSigns, h]

theorem swapSigns_lexeme (s : Sign) (text : List Char) :
    swapSigns (s.lexeme :: text) = (Sign.minus * s).lexeme :: swapSigns text := by
  cases s <;> rfl

/-- Neither a sign nor what a sign can stand behind. -/
def Unsigned (c : Char) : Prop := c ≠ '^' ∧ Sign.ofChar? c = none

/-- Other characters stay. -/
theorem swapSigns_append {front : List Char} (h : ∀ c ∈ front, Unsigned c) (text : List Char) :
    swapSigns (front ++ text) = front ++ swapSigns text := by
  induction front with
  | nil => rfl
  | cons c tail ih =>
    obtain ⟨⟨hcaret, hsign⟩, htail⟩ := List.forall_mem_cons.1 h
    rw [List.cons_append, swapSigns_cons hcaret, ih htail, swapSign, hsign]
    rfl

theorem unsigned_of_isDigit {c : Char} (h : c.isDigit = true) : Unsigned c := by
  refine ⟨?_, ?_⟩
  · rintro rfl
    cases h
  · rw [Option.eq_none_iff_forall_ne_some]
    intro s hs
    rw [Sign.ofChar?_eq_some_iff.1 hs] at h
    cases s <;> cases h

/-! ### Signs in the text of a term -/

theorem Integer.exists_chars_cons (n : Int) :
    ∃ c tail, Integer.chars n = c :: tail ∧ ∀ d ∈ tail, d.isDigit = true := by
  have hdigit : ∀ d ∈ toDigits n.natAbs, d.isDigit = true := fun _ => isDigit_of_mem_toDigits
  unfold chars
  split
  · exact ⟨'-', _, rfl, hdigit⟩
  · obtain ⟨c, tail, htail⟩ := List.exists_cons_of_ne_nil (toDigits_ne_nil n.natAbs)
    rw [htail] at hdigit ⊢
    exact ⟨c, tail, rfl, (List.forall_mem_cons.1 hdigit).2⟩

namespace Term

/-- The sign of an exponent stays. -/
theorem swapSigns_powerChars_append (e : Exponent) (text : List Char) :
    swapSigns (powerChars e ++ text) = powerChars e ++ swapSigns text := by
  have hvariable : Unsigned 'x' := by simp [Unsigned, Sign.ofChar?]
  unfold powerChars
  split
  · rfl
  · split
    · exact swapSigns_append (by simpa using hvariable) text
    · -- Only the first character of the exponent can be a sign, and it stands behind the `^`.
      obtain ⟨c, tail, hchars, htail⟩ := Integer.exists_chars_cons e.val
      have hbehind := swapSigns_append (fun d hd => unsigned_of_isDigit (htail d hd)) text
      rw [Exponent.chars, hchars]
      simp [swapSigns_cons, swapSign, Sign.ofChar?, hbehind]

/-- A coefficient without its sign is written without one. -/
theorem unsigned_of_mem_size {t : Term} {c : Char} (h : c ∈ t.size.coefficient.chars) :
    Unsigned c := by
  obtain ⟨d, e⟩ := t
  cases d with
  | finite s m =>
    rw [size_finite, Coefficient.chars_plus] at h
    obtain ⟨l, hchars, _⟩ := m.shortest.exists_literal
    rw [← hchars] at h
    rcases l.isDigit_or_point_of_mem h with hdigit | rfl
    · exact unsigned_of_isDigit hdigit
    · simp [Unsigned, Sign.ofChar?]
  | infinite s =>
    rw [size_infinite] at h
    have hmem : c ∈ Coefficient.infinityChars := h
    simp only [Coefficient.infinityChars, List.mem_cons, List.not_mem_nil, or_false] at hmem
    rcases hmem with rfl | rfl | rfl
    all_goals simp [Unsigned, Sign.ofChar?]
  | nan =>
    have hmem : c ∈ Coefficient.nanChars := h
    simp only [Coefficient.nanChars, List.mem_cons, List.not_mem_nil, or_false] at hmem
    rcases hmem with rfl | rfl | rfl
    all_goals simp [Unsigned, Sign.ofChar?]

theorem swapSigns_size_append (t : Term) (text : List Char) :
    swapSigns (t.size.chars ++ text) = t.size.chars ++ swapSigns text := by
  rw [chars, List.append_assoc, swapSigns_append fun _ => unsigned_of_mem_size,
    swapSigns_powerChars_append, List.append_assoc]

/-- What stands before the size of a term in a sum behind this sign: the sign of the product, and
nothing if the term is not a number. -/
def lead (s : Sign) (t : Term) : List Char :=
  if t.coefficient = .nan then [] else [(s * t.sign).lexeme]

theorem swapSigns_lead_append (s : Sign) (t : Term) (text : List Char) :
    swapSigns (t.lead s ++ text) = t.lead (.minus * s) ++ swapSigns text := by
  unfold lead
  split
  · rfl
  · rw [List.singleton_append, swapSigns_lexeme, Sign.mul_assoc]
    rfl

@[simp] theorem size_signed (s : Sign) (t : Term) : (t.signed s).size = t.size := by
  obtain ⟨c, e⟩ := t
  cases c with
  | finite r m => exact (size_finite _ m e).trans (size_finite r m e).symm
  | infinite r => exact (size_infinite _ e).trans (size_infinite r e).symm
  | nan => rfl

@[simp] theorem lead_signed (r s : Sign) (t : Term) : (t.signed s).lead r = t.lead (r * s) := by
  obtain ⟨c, e⟩ := t
  cases c with
  | nan => rfl
  | _ => simp [lead, signed, sign, Coefficient.signed, Coefficient.sign, Sign.mul_assoc]

@[simp] theorem isZero_signed (s : Sign) (t : Term) : (t.signed s).isZero = t.isZero :=
  t.coefficient.isZero_signed s

end Term

/-! ### A sign in front of a polynomial -/

namespace Poly

/-- **A sign passes through every derivative.** -/
theorem nthDerivative_signed (s : Sign) (p : Poly) (n : Nat) :
    (p.signed s).nthDerivative n = (p.nthDerivative n).signed s := by
  induction n generalizing p with
  | zero => rfl
  | succ n ih =>
    show (derivative (p.signed s)).nthDerivative n = (p.derivative.nthDerivative n).signed s
    rw [derivative_signed, ih]

theorem nonzero_signed (s : Sign) (p : Poly) : (p.signed s).nonzero = p.nonzero.signed s := by
  unfold nonzero signed
  rw [List.filter_map]
  simp [Function.comp_def]

/-- The terms of a sum behind a sign, each as its own sign and its size. -/
def sumChars (s : Sign) (q : Poly) : List Char := q.flatMap fun t => t.lead s ++ t.size.chars

theorem flatMap_signedChars_signed (s : Sign) {q : Poly} (h : ∀ t ∈ q, t.isZero = false) :
    (q.signed s).flatMap signedChars = q.sumChars s := by
  unfold signed sumChars
  rw [List.flatMap_map]
  refine List.flatMap_congr fun t ht => ?_
  have hzero : (t.signed s).isZero = false := (t.isZero_signed s).trans (h t ht)
  have hlead : signedChars (t.signed s) = (t.signed s).lead .plus ++ (t.signed s).size.chars := by
    simpa [Term.lead] using signedChars_eq_lead hzero
  rw [hlead, Term.lead_signed, Sign.plus_mul, Term.size_signed]

/-- Swapping the signs in the text of a sum is negating it. -/
theorem swapSigns_sumChars (s : Sign) (q : Poly) :
    swapSigns (q.sumChars s) = q.sumChars (.minus * s) := by
  unfold sumChars
  induction q with
  | nil => rfl
  | cons t q ih =>
    rw [List.flatMap_cons, List.flatMap_cons, List.append_assoc, Term.swapSigns_lead_append,
      Term.swapSigns_size_append, ih, List.append_assoc]

/-- The text of a polynomial behind a sign. -/
theorem text_signed (s : Sign) (p : Poly) :
    (p.signed s).text
      = if p.nonzero = [] then "0" else .ofList (dropPlus (p.nonzero.sumChars s)) := by
  have hnonzero := nonzero_signed s p
  split
  · next hnil =>
    rw [hnil] at hnonzero
    exact text_eq_zero_iff.2 hnonzero
  · next hne =>
    obtain ⟨t, q, hq⟩ := List.exists_cons_of_ne_nil hne
    have hcons : (p.signed s).nonzero = t.signed s :: signed s q := by
      rw [hnonzero, hq]
      rfl
    have hsum := flatMap_signedChars_signed s fun t ht => isZero_of_mem_nonzero (p := p) ht
    rw [hq, ← hq] at hsum
    rw [text, chars_of_nonzero_cons hcons, ← dropPlus_signedChars_append, ← List.flatMap_cons,
      ← hcons, hnonzero, hsum]

theorem signed_plus (p : Poly) : p.signed .plus = p :=
  List.map_id'' Term.signed_plus p

theorem text_signed_minus (p : Poly) : (p.signed .minus).text = negatedText p.text := by
  rw [text_signed, negatedText]
  by_cases hnil : p.nonzero = []
  · rw [if_pos hnil, if_pos (text_eq_zero_iff.2 hnil), text_eq_zero_iff.2 hnil]
  · rw [if_neg hnil, if_neg (mt text_eq_zero_iff.1 hnil)]
    have hsum := flatMap_signedChars_signed .plus fun t ht => isZero_of_mem_nonzero (p := p) ht
    rw [signed_plus, flatMap_nonzero_eq hnil] at hsum
    have hfirst : withFirstSign p.text.toList = p.nonzero.sumChars .plus := by
      rw [text, String.toList_ofList]
      exact hsum
    rw [hfirst, swapSigns_sumChars, Sign.mul_plus]

/-- **Negation passes through the derivatives and swaps the signs of the text.**  The derivative of any
order of the negation is the negation of the derivative, zeros with their signs.  The text of the
negation is the text with the sign before each number swapped: before the same sizes stand the other
signs, none before what is not a number, and the first of them is not written if it is a plus. -/
theorem nthDerivative_negation_and_text (p : Poly) (n : Nat) :
    (p.signed .minus).nthDerivative n = (p.nthDerivative n).signed .minus ∧
    ∀ q : Poly,
      (q.nonzero = [] → q.text = "0" ∧ (q.signed .minus).text = "0") ∧
      (q.nonzero ≠ [] → q.text = .ofList (dropPlus (q.nonzero.sumChars .plus)) ∧
        (q.signed .minus).text = .ofList (dropPlus (q.nonzero.sumChars .minus))) ∧
      (q.signed .minus).text = negatedText q.text := by
  refine ⟨nthDerivative_signed .minus p n, fun q => ?_⟩
  have hplus := text_signed .plus q
  have hminus := text_signed .minus q
  rw [signed_plus] at hplus
  refine ⟨fun hnil => ?_, fun hne => ?_, text_signed_minus q⟩
  · rw [if_pos hnil] at hplus hminus
    exact ⟨hplus, hminus⟩
  · rw [if_neg hne] at hplus hminus
    exact ⟨hplus, hminus⟩

/-- Terms of each kind. -/
def mixedTerms : Poly :=
  [⟨.ofInt (-2), Exponent.zero.pred⟩, ⟨.ofInt 3, .one⟩, ⟨.nan, .one⟩, ⟨.infinite .minus, .zero⟩]

/-- What is not a number has no sign before it, and exponents keep theirs. -/
theorem nthDerivative_negation_and_text_mixed :
    mixedTerms.nonzero ≠ [] ∧ (mixedTerms.signed .minus).text = "2x^-1-3xNaNx+inf" := by
  have hne : mixedTerms.nonzero ≠ [] := by decide +kernel
  obtain ⟨_, hnegation⟩ := nthDerivative_negation_and_text mixedTerms 0
  obtain ⟨_, hsum, _⟩ := hnegation mixedTerms
  refine ⟨hne, (hsum hne).2.trans ?_⟩
  decide +kernel

/-- The text alone is enough. -/
example : negatedText "-2x^-1+3xNaNx-inf" = "2x^-1-3xNaNx+inf" := by decide +kernel

end Poly

end PowerRule
