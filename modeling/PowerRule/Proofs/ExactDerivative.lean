import PowerRule.Proofs.TextDerivative
import PowerRule.Proofs.Whole

/-!
Derivatives of whole terms are exact.

A coefficient that is a whole number is written out by its digits, and the power rule multiplies it by
whole numbers.  As long as no number on the way is beyond `2 ^ 53`, none of them is rounded: the run of
the power rule holds, at each order, the term that the calculus of integers gives.

    t.Holds a  →  (t.nthDerivative n).Holds (a.nthDerivative n)

What a term holds is its whole number, and its exponent too unless this number is zero.  A zero term has
either sign, and its exponent may have stopped at the least one; neither is ever written.  Where the
number is not zero the exponent that multiplies it next is at most `2 ^ 53` in size, so it is rounded
to itself and far from the least one.

Main statement: `Poly.nthDerivativeText_of_whole`.
-/

namespace PowerRule

/-! ### Integer calculus -/

/-- The product `e * (e - 1) * … * (e - n + 1)` of `n` factors. -/
def falling (e : Int) : Nat → Int
  | 0 => 1
  | n + 1 => e * falling (e - 1) n

/-- The term `coefficient * x ^ exponent` with whole numbers of any size. -/
structure Monomial where
  coefficient : Int
  exponent : Int
  deriving DecidableEq

namespace Monomial

/-- The derivative. -/
def derivative (a : Monomial) : Monomial := ⟨a.coefficient * a.exponent, a.exponent - 1⟩

/-- The derivative of an order. -/
def nthDerivative (a : Monomial) (n : Nat) : Monomial :=
  ⟨a.coefficient * falling a.exponent n, a.exponent - n⟩

/-- The terms of the derivative of an order that are not zero. -/
def nthDerivatives (terms : List Monomial) (n : Nat) : List Monomial :=
  (terms.map (·.nthDerivative n)).filter (·.coefficient ≠ 0)

/-- No coefficient on the way to the derivative of this order is beyond `2 ^ 53`. -/
def Fits (a : Monomial) (n : Nat) : Prop :=
  ∀ k ≤ n, (a.coefficient * falling a.exponent k).natAbs ≤ 2 ^ (53 : Nat)

instance (a : Monomial) (n : Nat) : Decidable (a.Fits n) :=
  inferInstanceAs (Decidable (∀ k ≤ n, _))

@[simp] theorem nthDerivative_zero (a : Monomial) : a.nthDerivative 0 = a := by
  simp [nthDerivative, falling]

theorem nthDerivative_succ (a : Monomial) (n : Nat) :
    a.nthDerivative (n + 1) = a.derivative.nthDerivative n := by
  obtain ⟨c, e⟩ := a
  simp only [nthDerivative, derivative, falling, Int.mul_assoc, mk.injEq, true_and]
  omega

variable {a : Monomial} {n : Nat}

theorem Fits.natAbs_le (h : a.Fits n) : a.coefficient.natAbs ≤ 2 ^ (53 : Nat) := by
  have hzero := h 0 (Nat.zero_le n)
  rwa [falling, Int.mul_one] at hzero

theorem Fits.derivative (h : a.Fits (n + 1)) : a.derivative.Fits n := by
  intro k hk
  have hnext := h (k + 1) (Nat.succ_le_succ hk)
  rwa [falling, ← Int.mul_assoc] at hnext

theorem Fits.natAbs_nthDerivative_le (h : a.Fits n) :
    (a.nthDerivative n).coefficient.natAbs ≤ 2 ^ (53 : Nat) :=
  h n (Nat.le_refl n)

/-! ### Written form -/

def sign (a : Monomial) : Sign := if a.coefficient < 0 then .minus else .plus

/-- The power of the variable: nothing, `x`, or `x^` and the exponent. -/
def powerChars (e : Int) : List Char :=
  if e = 0 then [] else if e = 1 then ['x'] else 'x' :: '^' :: Integer.chars e

/-- The digits of the coefficient and the power. -/
def sizeChars (a : Monomial) : List Char :=
  toDigits a.coefficient.natAbs ++ powerChars a.exponent

/-- The text behind other terms, with its sign. -/
def signedChars (a : Monomial) : List Char := a.sign.lexeme :: a.sizeChars

/-- The text of a sum: each term with its sign, the plus of the first one left out; `0` if there are
no terms. -/
def sumChars : List Monomial → List Char
  | [] => ['0']
  | a :: others => a.sign.mark ++ a.sizeChars ++ others.flatMap signedChars

end Monomial

/-! ### Whole coefficients -/

/-- An integer behind a sign. -/
def Sign.times : Sign → Int → Int
  | plus, n => n
  | minus, n => -n

theorem Sign.times_mul (s t : Sign) (a b : Int) : (s * t).times (a * b) = s.times a * t.times b := by
  match s, t with
  | plus, plus => rfl
  | plus, minus => exact (Int.mul_neg a b).symm
  | minus, plus => exact (Int.neg_mul a b).symm
  | minus, minus => exact (Int.neg_mul_neg a b).symm

/-- The sign of a number that is not zero. -/
theorem Monomial.sign_eq {a : Monomial} {s : Sign} (hzero : a.coefficient ≠ 0)
    (h : a.coefficient = s.times a.coefficient.natAbs) : a.sign = s := by
  unfold sign
  cases s with
  | plus =>
    simp only [Sign.times] at h
    exact if_neg (by omega)
  | minus =>
    simp only [Sign.times] at h
    exact if_pos (by omega)

@[simp] theorem Sign.natAbs_times (s : Sign) (n : Nat) : (s.times n).natAbs = n := by
  cases s <;> simp [times]

namespace Coefficient

/-- The integer that a coefficient is, if it is one. -/
def toInt? : Coefficient → Option Int
  | finite s m => if unitsPerOne ∣ m.units then some (s.times (m.units / unitsPerOne : Nat)) else none
  | infinite _ => none
  | nan => none

/-- What a whole coefficient is: a sign, and a number of units that are whole ones. -/
theorem exists_of_toInt? {c : Coefficient} {k : Int} (h : c.toInt? = some k) :
    ∃ s m, c = finite s m ∧ m.units = k.natAbs * unitsPerOne ∧ k = s.times k.natAbs := by
  cases c with
  | finite s m =>
    rw [toInt?] at h
    split at h
    · next hdvd =>
      have hunits := Nat.div_mul_cancel hdvd
      cases h
      refine ⟨s, m, rfl, ?_, ?_⟩
      · rw [Sign.natAbs_times, hunits]
      · rw [Sign.natAbs_times]
    · cases h
  | infinite s => cases h
  | nan => cases h

theorem isZero_iff_of_toInt? {c : Coefficient} {k : Int} (h : c.toInt? = some k) :
    c.isZero = true ↔ k = 0 := by
  obtain ⟨s, m, rfl, hunits, _⟩ := exists_of_toInt? h
  have hone : unitsPerOne ≠ 0 := Nat.ne_of_gt unitsPerOne_pos
  show (m.units == 0) = true ↔ k = 0
  rw [beq_iff_eq, hunits, Nat.mul_eq_zero, or_iff_left hone, Int.natAbs_eq_zero]

theorem toInt?_of_isZero {c : Coefficient} (h : c.isZero = true) : c.toInt? = some 0 := by
  cases c with
  | finite s m =>
    obtain rfl : m = .zero := Magnitude.isZero_iff.1 h
    show (if unitsPerOne ∣ 0 then some (s.times (0 / unitsPerOne : Nat)) else none) = some 0
    rw [if_pos (Nat.dvd_zero _), Nat.zero_div]
    cases s
    · rfl
    · rfl
  | infinite s => cases h
  | nan => cases h

/-- Up to `2 ^ 53` it is one of the whole magnitudes. -/
theorem exists_whole_of_toInt? {c : Coefficient} {k : Int} (h : c.toInt? = some k)
    (hk : k.natAbs ≤ 2 ^ (53 : Nat)) :
    ∃ s, c = finite s (.whole k.natAbs hk) ∧ k = s.times k.natAbs := by
  obtain ⟨s, m, rfl, hunits, hsign⟩ := exists_of_toInt? h
  exact ⟨s, congrArg (finite s) (Magnitude.ext hunits), hsign⟩

theorem toInt?_whole (s : Sign) {n : Nat} (h : n ≤ 2 ^ (53 : Nat)) :
    (finite s (.whole n h)).toInt? = some (s.times n) := by
  show (if unitsPerOne ∣ n * unitsPerOne then some (s.times (n * unitsPerOne / unitsPerOne : Nat))
    else none) = _
  rw [if_pos (Nat.dvd_mul_left _ _), Nat.mul_div_cancel _ unitsPerOne_pos]

/-- An integer up to `2 ^ 53` is not rounded. -/
theorem exists_ofInt_eq_whole {e : Int} (h : e.natAbs ≤ 2 ^ (53 : Nat)) :
    ∃ s, ofInt e = finite s (.whole e.natAbs h) ∧ e = s.times e.natAbs := by
  refine ⟨if e < 0 then .minus else .plus, ?_, ?_⟩
  · rw [ofInt, ofQuotient, Magnitude.round?_whole (h := h), Option.elim_some]
  · split
    · simp only [Sign.times]
      omega
    · simp only [Sign.times]
      omega

/-- Nor is a product up to `2 ^ 53`. -/
theorem whole_mul_whole (s t : Sign) {a b : Nat} (ha : a ≤ 2 ^ (53 : Nat)) (hb : b ≤ 2 ^ (53 : Nat))
    (h : a * b ≤ 2 ^ (53 : Nat)) :
    finite s (.whole a ha) * finite t (.whole b hb) = finite (s * t) (.whole (a * b) h) := by
  have hunits : a * unitsPerOne * (b * unitsPerOne) = a * b * unitsPerOne * unitsPerOne := by
    rw [Nat.mul_mul_mul_comm, Nat.mul_assoc (a * b)]
  show ofQuotient (s * t) (a * unitsPerOne * (b * unitsPerOne)) unitsPerOne = _
  rw [hunits, ofQuotient, Magnitude.round?_whole_mul (h := h) unitsPerOne_pos, Option.elim_some]

end Coefficient

/-! ### The run of the power rule -/

namespace Term

/-- The derivative of an order of one term. -/
def nthDerivative (t : Term) : Nat → Term
  | 0 => t
  | n + 1 => nthDerivative t.derivative n

theorem powerChars_eq (e : Exponent) : powerChars e = Monomial.powerChars e.val := by
  unfold powerChars Monomial.powerChars
  simp only [Exponent.ext_iff, Exponent.zero, Exponent.one, Exponent.chars]

/-- A term holds a whole number, and its power unless the number is zero. -/
structure Holds (t : Term) (a : Monomial) : Prop where
  coefficient : t.coefficient.toInt? = some a.coefficient
  exponent : a.coefficient ≠ 0 → t.exponent.val = a.exponent

namespace Holds

variable {t : Term} {a : Monomial}

theorem isZero_iff (h : t.Holds a) : t.isZero = true ↔ a.coefficient = 0 :=
  Coefficient.isZero_iff_of_toInt? h.coefficient

theorem isZero_eq_false (h : t.Holds a) (hzero : a.coefficient ≠ 0) : t.isZero = false := by
  apply Bool.eq_false_iff.2
  exact mt h.isZero_iff.1 hzero

/-- A term that is not zero is multiplied by its exponent, and nothing is rounded. -/
theorem derivative_of_ne_zero (h : t.Holds a) (hzero : a.coefficient ≠ 0)
    (hfits : a.coefficient.natAbs ≤ 2 ^ (53 : Nat))
    (hnext : a.derivative.coefficient.natAbs ≤ 2 ^ (53 : Nat)) : t.derivative.Holds a.derivative := by
  have hmul : a.coefficient.natAbs * a.exponent.natAbs ≤ 2 ^ (53 : Nat) := by
    rwa [Monomial.derivative, Int.natAbs_mul] at hnext
  have hexponent : a.exponent.natAbs ≤ 2 ^ (53 : Nat) :=
    Nat.le_trans (Nat.le_mul_of_pos_left _ (Int.natAbs_pos.2 hzero)) hmul
  obtain ⟨s, hc, hs⟩ := Coefficient.exists_whole_of_toInt? h.coefficient hfits
  obtain ⟨r, he, hr⟩ := Coefficient.exists_ofInt_eq_whole hexponent
  constructor
  · show (t.coefficient * .ofInt t.exponent.val).toInt? = some (a.coefficient * a.exponent)
    rw [h.exponent hzero, hc, he, Coefficient.whole_mul_whole s r hfits hexponent hmul,
      Coefficient.toInt?_whole, Int.natCast_mul, Sign.times_mul, ← hs, ← hr]
  · intro _
    show max (t.exponent.val - 1) (-9223372036854775808) = a.exponent - 1
    rw [h.exponent hzero]
    omega

/-- A zero term stays a zero term, whatever its exponent is. -/
theorem derivative_of_eq_zero (h : t.Holds a) (hzero : a.coefficient = 0) :
    t.derivative.Holds a.derivative := by
  have hproduct : a.derivative.coefficient = 0 := by
    rw [Monomial.derivative, hzero, Int.zero_mul]
  constructor
  · rw [hproduct]
    apply Coefficient.toInt?_of_isZero
    apply isZero_derivative
    exact h.isZero_iff.2 hzero
  · intro hne
    exact absurd hproduct hne

theorem derivative {n : Nat} (h : t.Holds a) (hfits : a.Fits (n + 1)) :
    t.derivative.Holds a.derivative := by
  by_cases hzero : a.coefficient = 0
  · exact h.derivative_of_eq_zero hzero
  · exact h.derivative_of_ne_zero hzero hfits.natAbs_le hfits.derivative.natAbs_le

/-- **The power rule is exact on whole numbers**, as long as they are not beyond `2 ^ 53`. -/
theorem nthDerivative {n : Nat} (h : t.Holds a) (hfits : a.Fits n) :
    (t.nthDerivative n).Holds (a.nthDerivative n) := by
  induction n generalizing t a with
  | zero =>
    rw [Monomial.nthDerivative_zero]
    exact h
  | succ n ih =>
    rw [Monomial.nthDerivative_succ]
    exact ih (h.derivative hfits) hfits.derivative

/-- A term that is not zero is written as the term that it holds. -/
theorem signedChars_eq (h : t.Holds a) (hzero : a.coefficient ≠ 0)
    (hfits : a.coefficient.natAbs ≤ 2 ^ (53 : Nat)) : Poly.signedChars t = a.signedChars := by
  obtain ⟨s, hc, hs⟩ := Coefficient.exists_whole_of_toInt? h.coefficient hfits
  have hnonzero := h.isZero_eq_false hzero
  have hexponent := h.exponent hzero
  obtain ⟨c, e⟩ := t
  obtain rfl := hc
  rw [Poly.signedChars_eq rfl hnonzero, size_finite, chars, Coefficient.chars_plus,
    Magnitude.positional_shortest_whole, powerChars_eq, hexponent]
  show s.lexeme :: a.sizeChars = _
  rw [Monomial.signedChars, Monomial.sign_eq hzero hs]

end Holds

/-- The term in whole numbers, if its coefficient is one. -/
def monomial? (t : Term) : Option Monomial :=
  t.coefficient.toInt?.map (⟨·, t.exponent.val⟩)

theorem holds_of_monomial? {t : Term} {a : Monomial} (h : t.monomial? = some a) : t.Holds a := by
  obtain ⟨k, hk, rfl⟩ := Option.map_eq_some_iff.1 h
  exact ⟨hk, fun _ => rfl⟩

end Term

/-! ### The text of a sum -/

namespace Poly

theorem nthDerivative_cons (t : Term) (p : Poly) (n : Nat) :
    nthDerivative (t :: p) n = t.nthDerivative n :: p.nthDerivative n := by
  induction n generalizing t p with
  | zero => rfl
  | succ n ih => exact ih t.derivative p.derivative

/-- The terms that are written are those of the integer calculus. -/
theorem flatMap_nonzero_nthDerivative {p : Poly} {terms : List Monomial} {n : Nat}
    (hwhole : p.mapM Term.monomial? = some terms) (hfits : ∀ a ∈ terms, a.Fits n) :
    (p.nthDerivative n).nonzero.flatMap signedChars
      = (Monomial.nthDerivatives terms n).flatMap Monomial.signedChars := by
  induction p generalizing terms with
  | nil =>
    cases hwhole
    have hnil : nthDerivative [] n = [] := List.eq_nil_of_length_eq_zero (length_nthDerivative [] n)
    rw [hnil]
    rfl
  | cons t p ih =>
    rw [List.mapM_cons] at hwhole
    obtain ⟨a, ha, hrest⟩ := Option.bind_eq_some_iff.1 hwhole
    obtain ⟨others, hothers, heq⟩ := Option.bind_eq_some_iff.1 hrest
    cases heq
    obtain ⟨hafits, hfits⟩ := List.forall_mem_cons.1 hfits
    have hholds := (Term.holds_of_monomial? ha).nthDerivative hafits
    have hothers := ih hothers hfits
    unfold nonzero Monomial.nthDerivatives at hothers ⊢
    rw [nthDerivative_cons, List.map_cons]
    by_cases hzero : (a.nthDerivative n).coefficient = 0
    · -- A term that vanishes is left out on both sides.
      have hterm := hholds.isZero_iff.2 hzero
      rw [List.filter_cons_of_neg (by simp [hterm]), List.filter_cons_of_neg (by simp [hzero]), hothers]
    · have hterm := hholds.isZero_eq_false hzero
      rw [List.filter_cons_of_pos (by simp [hterm]), List.filter_cons_of_pos (by simp [hzero]),
        List.flatMap_cons, List.flatMap_cons, hothers,
        hholds.signedChars_eq hzero hafits.natAbs_nthDerivative_le]

/-- Of a first plus nothing is left, of a first minus its mark. -/
theorem dropPlus_lexeme_cons {s : Sign} (text : List Char) :
    dropPlus (s.lexeme :: text) = s.mark ++ text := by
  cases s with
  | plus => rfl
  | minus => rfl

theorem chars_nthDerivative_of_whole {p : Poly} {terms : List Monomial} {n : Nat}
    (hwhole : p.mapM Term.monomial? = some terms) (hfits : ∀ a ∈ terms, a.Fits n) :
    (p.nthDerivative n).chars = Monomial.sumChars (Monomial.nthDerivatives terms n) := by
  unfold chars
  rw [flatMap_nonzero_nthDerivative hwhole hfits]
  cases Monomial.nthDerivatives terms n with
  | nil => rfl
  | cons a others =>
    have hne : a.sign.mark ++ (a.sizeChars ++ others.flatMap Monomial.signedChars) ≠ [] := by
      simp [Monomial.sizeChars]
    rw [List.flatMap_cons, Monomial.signedChars, List.cons_append, dropPlus_lexeme_cons]
    dsimp only
    rw [if_neg hne, Monomial.sumChars, List.append_assoc]

/-- **Integer calculus, end to end.**  If the coefficients that are read are whole numbers, and no
number on the way is beyond `2 ^ 53`, then the text of the derivative is that of the exact one: its
terms that are not zero, in their order, with all digits and without a fraction. -/
theorem nthDerivativeText_of_whole {text : String} {p : Poly} {terms : List Monomial} {n : Nat}
    (h : parse text = .ok p) (hwhole : p.mapM Term.monomial? = some terms)
    (hfits : ∀ a ∈ terms, a.Fits n) :
    nthDerivativeText text n
      = .ok (.ofList (Monomial.sumChars (Monomial.nthDerivatives terms n))) := by
  rw [nthDerivativeText_of_parse h, Poly.text, chars_nthDerivative_of_whole hwhole hfits]

/-- Whole terms: with a fraction of zeros, with a negative power, a constant, a zero term with the
greatest power, and one at the limit. -/
def wholeText : String := "-100.0x^3+x^-2+7-0x^9223372036854775807-9007199254740992x"

def wholePoly : Poly :=
  [⟨.ofInt (-100), ⟨3, by decide, by decide⟩⟩, ⟨.one, ⟨-2, by decide, by decide⟩⟩, ⟨.ofInt 7, .zero⟩,
    ⟨.finite .minus .zero, .greatest⟩, ⟨.ofInt (-9007199254740992), .one⟩]

def wholeTerms : List Monomial :=
  [⟨-100, 3⟩, ⟨1, -2⟩, ⟨7, 0⟩, ⟨0, 9223372036854775807⟩, ⟨-9007199254740992, 1⟩]

theorem nthDerivativeText_of_whole_at_limit :
    parse wholeText = .ok wholePoly ∧ wholePoly.mapM Term.monomial? = some wholeTerms ∧
      ((∀ a ∈ wholeTerms, a.Fits 1) ∧
        nthDerivativeText wholeText 1 = .ok "-300x^2-2x^-3-9007199254740992") ∧
      ((∀ a ∈ wholeTerms, a.Fits 2) ∧ nthDerivativeText wholeText 2 = .ok "-600x+6x^-4") := by
  have hparse : parse wholeText = .ok wholePoly := by decide +kernel
  have hwhole : wholePoly.mapM Term.monomial? = some wholeTerms := by decide +kernel
  have hfirst : ∀ a ∈ wholeTerms, a.Fits 1 := by decide +kernel
  have hsecond : ∀ a ∈ wholeTerms, a.Fits 2 := by decide +kernel
  refine ⟨hparse, hwhole, ⟨hfirst, ?_⟩, hsecond, ?_⟩
  · exact nthDerivativeText_of_whole hparse hwhole hfirst
  · exact nthDerivativeText_of_whole hparse hwhole hsecond

end Poly

end PowerRule
