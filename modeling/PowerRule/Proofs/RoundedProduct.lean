import Mathlib.Data.List.Forall2
import PowerRule.Proofs.Nearest
import PowerRule.Proofs.TextDerivative
import PowerRule.Proofs.Whole

/-!
The power rule, correctly rounded.

The power rule rounds twice: the exponent to the format, and then the product of the coefficient and
the rounded exponent.  Each time the exact number is rounded once, to the nearest number of the format.

Rounding is a matter of magnitudes, and a sign goes along with it.  A number with a sign is nearest
among all numbers of the format if its magnitude is nearest among all magnitudes: what has the other
sign is farther away, or it is zero as well (`isNearest_of_magnitude`).

    exact number          v
    its rounding          finite s m, nearest to v      if |v| < 2 ^ 1024 - 2 ^ 970
                          infinite s                    if not

The sign `s` is that of the product even where the product is rounded to zero.

Main statement: `Poly.forall₂_derivative_isRounded`.
-/

namespace PowerRule

/-! ### Signed values -/

namespace Sign

/-- A sign as a number. -/
def factor : Sign → ℚ
  | plus => 1
  | minus => -1

@[simp] theorem factor_plus : plus.factor = 1 := rfl

@[simp] theorem factor_minus : minus.factor = -1 := rfl

@[simp] theorem factor_mul (s t : Sign) : (s * t).factor = s.factor * t.factor := by
  match s, t with
  | plus, t => rw [plus_mul, factor_plus, one_mul]
  | minus, plus => rw [mul_plus, factor_plus, mul_one]
  | minus, minus => rw [mul_self, factor_plus, factor_minus, neg_one_mul, neg_neg]

@[simp] theorem abs_factor (s : Sign) : |s.factor| = 1 := by
  cases s <;> simp

/-- There are two signs, and they are opposite. -/
theorem factor_eq_or_neg (s t : Sign) : t.factor = s.factor ∨ t.factor = -s.factor := by
  cases s <;> cases t <;> simp

end Sign

/-- The sign of an exponent; that of zero is plus. -/
def Exponent.sign (e : Exponent) : Sign := if e.val < 0 then .minus else .plus

theorem Exponent.factor_sign_mul (e : Exponent) : e.sign.factor * (e.val.natAbs : ℚ) = e.val := by
  have habs : (e.val.natAbs : ℚ) = |(e.val : ℚ)| := by
    rw [Nat.cast_natAbs, Int.cast_abs]
  unfold sign
  split
  · next h =>
    rw [habs, abs_of_neg (by exact_mod_cast h), Sign.factor_minus, neg_one_mul, neg_neg]
  · next h =>
    rw [habs, abs_of_nonneg (by exact_mod_cast not_lt.1 h), Sign.factor_plus, one_mul]

namespace Coefficient

/-- The number that a sign and a magnitude are. -/
def signedValue (s : Sign) (m : Magnitude) : ℚ := s.factor * m.value

/-- No number of the format is nearer to `v`, and if another is equally near the significand is
even. -/
structure IsNearest (s : Sign) (m : Magnitude) (v : ℚ) : Prop where
  nearest : ∀ t n, |v - signedValue s m| ≤ |v - signedValue t n|
  even_of_tie : ∀ t n, signedValue t n ≠ signedValue s m →
    |v - signedValue t n| = |v - signedValue s m| → significand m.units % 2 = 0

/-- The coefficient is `v` rounded, with this sign. -/
structure IsRounded (c : Coefficient) (s : Sign) (v : ℚ) : Prop where
  sign : (∃ m, c = finite s m) ∨ c = infinite s
  infinite_iff : c = infinite s ↔ 2 ^ (1024 : ℕ) - 2 ^ (970 : ℕ) ≤ |v|
  nearest : ∀ m, c = finite s m → IsNearest s m v

/-! ### Magnitudes decide -/

section Signs

variable {s : Sign} {m : Magnitude} {w : ℚ}

/-- Distances on the side of the sign are those of the magnitudes. -/
theorem abs_sub_signedValue (s : Sign) (m : Magnitude) (w : ℚ) :
    |s.factor * w - signedValue s m| = |w - m.value| := by
  rw [signedValue, ← mul_sub, abs_mul, Sign.abs_factor, one_mul]

/-- On the other side they are sums. -/
theorem abs_sub_signedValue_neg {t : Sign} (ht : t.factor = -s.factor) (n : Magnitude) (w : ℚ) :
    |s.factor * w - signedValue t n| = |w + n.value| := by
  rw [signedValue, ht, neg_mul, sub_neg_eq_add, ← mul_add, abs_mul, Sign.abs_factor, one_mul]

theorem abs_sub_le_abs_add (hw : 0 ≤ w) (n : Magnitude) : |w - n.value| ≤ |w + n.value| := by
  have hn := n.value_nonneg
  rw [abs_of_nonneg (add_nonneg hw hn)]
  exact abs_le.2 ⟨by linarith, by linarith⟩

/-- What has the other sign is as near only where one of the two is zero. -/
theorem value_eq_zero_of_tie (hw : 0 ≤ w) (h : m.IsNearest w) (htie : |w + m.value| = |w - m.value|) :
    m.value = 0 := by
  have hm := m.value_nonneg
  rw [abs_of_nonneg (add_nonneg hw hm)] at htie
  rcases abs_cases (w - m.value) with ⟨habs, _⟩ | ⟨habs, _⟩
  · linarith
  · have hnear := h.nearest .zero
    rw [Magnitude.value_zero, sub_zero, abs_of_nonneg hw] at hnear
    linarith

/-- **A magnitude that is nearest makes a number that is nearest.** -/
theorem isNearest_of_magnitude (hw : 0 ≤ w) (h : m.IsNearest w) :
    IsNearest s m (s.factor * w) := by
  constructor
  · intro t n
    rw [abs_sub_signedValue]
    rcases Sign.factor_eq_or_neg s t with ht | ht
    · rw [signedValue, ht, ← signedValue, abs_sub_signedValue]
      exact h.nearest n
    · -- On the other side of zero a number is farther away than its mirror image.
      rw [abs_sub_signedValue_neg ht]
      exact (h.nearest n).trans (abs_sub_le_abs_add hw n)
  · intro t n hne htie
    rw [abs_sub_signedValue] at htie
    rcases Sign.factor_eq_or_neg s t with ht | ht
    · rw [signedValue, ht, ← signedValue, abs_sub_signedValue] at htie
      refine h.even_of_tie n ?_ htie
      rintro rfl
      exact hne (by rw [signedValue, ht, ← signedValue])
    · rw [abs_sub_signedValue_neg ht] at htie
      have hsame : |w - n.value| = |w - m.value| :=
        le_antisymm ((abs_sub_le_abs_add hw n).trans htie.le) (h.nearest n)
      refine h.even_of_tie n ?_ hsame
      rintro rfl
      have hzero := value_eq_zero_of_tie hw h htie
      exact hne (by rw [signedValue, signedValue, hzero, mul_zero, mul_zero])

end Signs

theorem abs_factor_mul (s : Sign) {w : ℚ} (hw : 0 ≤ w) : |s.factor * w| = w := by
  rw [abs_mul, Sign.abs_factor, one_mul, abs_of_nonneg hw]

/-- **A quotient of units is rounded correctly**, whatever its sign. -/
theorem isRounded_ofQuotient (s : Sign) {num den : Nat} (hden : 0 < den) {w : ℚ}
    (hw : (num : ℚ) / den / 2 ^ (1074 : ℕ) = w) :
    (ofQuotient s num den).IsRounded s (s.factor * w) := by
  have hnonneg : 0 ≤ w := by
    rw [← hw]
    positivity
  have hnone : Magnitude.round? num den = none
      ↔ 2 ^ (1024 : ℕ) - 2 ^ (970 : ℕ) ≤ |s.factor * w| := by
    rw [abs_factor_mul s hnonneg, ← hw]
    exact Magnitude.round?_eq_none_iff_le hden
  unfold ofQuotient
  cases hround : Magnitude.round? num den with
  | none =>
    rw [hround] at hnone
    exact ⟨.inr rfl, ⟨fun _ => hnone.1 rfl, fun _ => rfl⟩, nofun⟩
  | some m =>
    rw [hround] at hnone
    refine ⟨.inl ⟨m, rfl⟩, ⟨nofun, fun h => nomatch hnone.2 h⟩, ?_⟩
    rintro _ ⟨⟩
    refine isNearest_of_magnitude hnonneg ?_
    rw [← hw]
    exact Magnitude.isNearest_of_round? hden hround

/-! ### Products -/

theorem quotient_mul (m n : Magnitude) :
    ((m.units * n.units : Nat) : ℚ) / unitsPerOne / 2 ^ (1074 : ℕ) = m.value * n.value := by
  rw [Magnitude.value, Magnitude.value, div_mul_div_comm, ← div_div, ← Nat.cast_mul, cast_unitsPerOne]

/-- **The product of two numbers is the exact product, rounded once.** -/
theorem isRounded_mul (s t : Sign) (m n : Magnitude) :
    (finite s m * finite t n).IsRounded (s * t) (signedValue s m * signedValue t n) := by
  have hsplit : signedValue s m * signedValue t n = (s * t).factor * (m.value * n.value) := by
    rw [signedValue, signedValue, Sign.factor_mul, mul_mul_mul_comm]
  rw [hsplit, finite_mul_finite]
  exact isRounded_ofQuotient (s * t) unitsPerOne_pos (quotient_mul m n)

/-! ### Exponents -/

theorem quotient_natCast (k : Nat) :
    ((k * unitsPerOne : Nat) : ℚ) / (1 : Nat) / 2 ^ (1074 : ℕ) = k := by
  have hpos : (0 : ℚ) < unitsPerOne := by exact_mod_cast unitsPerOne_pos
  rw [Nat.cast_one, div_one, Nat.cast_mul, ← cast_unitsPerOne, mul_div_cancel_right₀ _ hpos.ne']

end Coefficient

theorem Magnitude.value_whole (k : Nat) (h : k ≤ 2 ^ (53 : Nat)) : (whole k h).value = k := by
  have hquotient := Coefficient.quotient_natCast k
  rwa [Nat.cast_one, div_one] at hquotient

/-- What an exponent is rounded to. -/
structure Exponent.RoundsTo (e : Exponent) (n : Magnitude) : Prop where
  ofInt_eq : Coefficient.ofInt e.val = .finite e.sign n
  isNearest : Coefficient.IsNearest e.sign n e.val
  /-- It is at least one, unless the exponent is zero. -/
  unitsPerOne_le : e.val ≠ 0 → unitsPerOne ≤ n.units
  /-- Up to `2 ^ 53` it is the exponent. -/
  eq_whole : ∀ h : e.val.natAbs ≤ 2 ^ (53 : Nat), n = .whole e.val.natAbs h

/-- **Each exponent is rounded to a finite number.** -/
theorem Exponent.exists_roundsTo (e : Exponent) : ∃ n, e.RoundsTo n := by
  obtain ⟨n, hround⟩ : ∃ n, Magnitude.round? (e.val.natAbs * unitsPerOne) 1 = some n := by
    obtain ⟨s, n, hn⟩ := Coefficient.exists_ofInt_eq e
    rw [Coefficient.ofInt, Coefficient.ofQuotient] at hn
    cases hround : Magnitude.round? (e.val.natAbs * unitsPerOne) 1 with
    | none =>
      rw [hround] at hn
      cases hn
    | some n => exact ⟨n, rfl⟩
  have hofInt : Coefficient.ofInt e.val = .finite e.sign n := by
    rw [Coefficient.ofInt, Coefficient.ofQuotient, hround]
    rfl
  refine ⟨n, hofInt, ?_, ?_, ?_⟩
  · have hrounded := Coefficient.isRounded_ofQuotient e.sign Nat.one_pos
      (Coefficient.quotient_natCast e.val.natAbs)
    rw [e.factor_sign_mul] at hrounded
    exact hrounded.nearest n hofInt
  · intro hne
    -- One is its own rounding, and rounding keeps the order.
    have hle : unitsPerOne ≤ e.val.natAbs * unitsPerOne :=
      Nat.le_mul_of_pos_left _ (Int.natAbs_pos.2 hne)
    calc unitsPerOne = roundUnits unitsPerOne 1 :=
          (roundUnits_one_of_dvd spacing_dvd_unitsPerOne).symm
      _ ≤ roundUnits (e.val.natAbs * unitsPerOne) 1 := roundUnits_mono 1 hle
      _ = n.units := Magnitude.round?_eq_some_iff.1 hround
  · intro h
    exact Option.some.inj (hround.symm.trans Magnitude.round?_whole)

/-- Only zero is rounded to zero. -/
theorem Exponent.RoundsTo.isZero_iff {e : Exponent} {n : Magnitude} (h : e.RoundsTo n) :
    n.isZero = true ↔ e.val = 0 := by
  constructor
  · intro hzero
    by_contra hne
    have hle := h.unitsPerOne_le hne
    rw [Magnitude.isZero_iff.1 hzero] at hle
    exact absurd unitsPerOne_pos (Nat.not_lt.2 hle)
  · intro hzero
    rw [h.eq_whole (by rw [hzero]; decide), Magnitude.isZero_whole_iff, hzero]
    rfl

theorem Exponent.RoundsTo.signedValue_eq {e : Exponent} {n : Magnitude} (h : e.RoundsTo n)
    (he : e.val.natAbs ≤ 2 ^ (53 : Nat)) : Coefficient.signedValue e.sign n = e.val := by
  rw [h.eq_whole he, Coefficient.signedValue, Magnitude.value_whole, e.factor_sign_mul]

/-! ### The power rule -/

namespace Term

/-- The power rule with its roundings: the coefficient of `u` is that of the derivative of `t`. -/
structure IsRoundedDerivative (t u : Term) : Prop where
  /-- The exponent is rounded, and then the product is. -/
  finite : ∀ s m, t.coefficient = .finite s m →
    ∃ n, Coefficient.IsNearest t.exponent.sign n t.exponent.val ∧
      u.coefficient.IsRounded (s * t.exponent.sign)
        (Coefficient.signedValue s m * Coefficient.signedValue t.exponent.sign n)
  /-- Up to `2 ^ 53` the exponent is exact, so that only the product is rounded. -/
  exact : ∀ s m, t.coefficient = .finite s m → t.exponent.val.natAbs ≤ 2 ^ (53 : Nat) →
    u.coefficient.IsRounded (s * t.exponent.sign) (Coefficient.signedValue s m * t.exponent.val)
  /-- Infinity stays infinite, with the sign of the product, but zero times infinity is no number. -/
  infinite : ∀ s, t.coefficient = .infinite s →
    u.coefficient = if t.exponent.val = 0 then .nan else .infinite (s * t.exponent.sign)
  nan : t.coefficient = .nan → u.coefficient = .nan

theorem isRoundedDerivative (t : Term) : t.IsRoundedDerivative t.derivative := by
  obtain ⟨n, hn⟩ := t.exponent.exists_roundsTo
  have hmul : t.derivative.coefficient = t.coefficient * .finite t.exponent.sign n := by
    rw [← hn.ofInt_eq]
    rfl
  constructor
  · intro s m hc
    refine ⟨n, hn.isNearest, ?_⟩
    rw [hmul, hc]
    exact Coefficient.isRounded_mul s t.exponent.sign m n
  · intro s m hc he
    rw [hmul, hc, ← hn.signedValue_eq he]
    exact Coefficient.isRounded_mul s t.exponent.sign m n
  · intro s hc
    rw [hmul, hc]
    show (if n.isZero then Coefficient.nan else .infinite (s * t.exponent.sign)) = _
    simp only [hn.isZero_iff]
  · intro hc
    rw [hmul, hc]
    rfl

end Term

/-- **The power rule is correctly rounded, term by term.** -/
theorem Poly.forall₂_derivative_isRounded (p : Poly) :
    List.Forall₂ Term.IsRoundedDerivative p p.derivative := by
  rw [derivative, List.forall₂_map_right_iff, List.forall₂_same]
  intro t _
  exact t.isRoundedDerivative

end PowerRule
