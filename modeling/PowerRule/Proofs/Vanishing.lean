import PowerRule.Proofs.ExactDerivative
import PowerRule.Proofs.RoundedProduct

/-!
Which terms vanish.

A derivative of order `n` multiplies a coefficient by `e`, `e - 1`, and so on, `n` factors in all.  As
long as none of them is zero the coefficient grows in size, because a factor of size one or more is
rounded to one of size one or more; so no term underflows to zero.  The factor zero comes only where the
exponent runs from `0 ≤ e` down past zero:

    e < 0 or n ≤ e      the term stays, and it is no smaller than at the order before
    0 ≤ e < n           it was multiplied by zero: it is zero, or not a number if it was infinite

The step is `HasSign.mul_ofInt` for a factor other than zero, and one lemma each for the factor zero and
for what comes behind it; the runs are inductions on the order.  The exponent stops at the least one, but
there it is negative, as it was before.

Main statement: `Poly.nthDerivative_vanishing`.
-/

namespace PowerRule

namespace Coefficient

/-! ### Signs and sizes -/

/-- Less than zero. -/
def isNegative : Coefficient → Bool
  | finite .minus m => !m.isZero
  | infinite .minus => true
  | _ => false

/-- The first is at most as large as the second, signs aside; what is not a number has no size. -/
def SizeLe : Coefficient → Coefficient → Prop
  | finite _ m, finite _ n => m.value ≤ n.value
  | finite _ _, infinite _ => True
  | infinite _, infinite _ => True
  | _, _ => False

/-- A number with this sign, finite or not, that is not zero. -/
inductive HasSign (s : Sign) : Coefficient → Prop
  | number {m : Magnitude} (h : m.isZero = false) : HasSign s (finite s m)
  | infinity : HasSign s (infinite s)

variable {s : Sign} {c : Coefficient}

theorem exists_hasSign (hfinite : c.isFinite = true) (hzero : c.isZero = false) :
    ∃ s, HasSign s c := by
  obtain ⟨s, m, rfl⟩ := exists_finite hfinite
  exact ⟨s, .number hzero⟩

namespace HasSign

theorem isZero_eq_false (h : HasSign s c) : c.isZero = false := by
  cases h with
  | number hm => exact hm
  | infinity => rfl

theorem ne_nan (h : HasSign s c) : c ≠ nan := by
  rintro rfl
  cases h

theorem isNegative_eq (h : HasSign s c) : c.isNegative = decide (s = .minus) := by
  cases h with
  | number hm => cases s <;> simp [isNegative, hm]
  | infinity => cases s <;> rfl

theorem eq_infinite (h : HasSign s c) (hfinite : c.isFinite = false) : c = infinite s := by
  cases h with
  | number hm => cases hfinite
  | infinity => rfl

/-! ### One factor -/

/-- **A factor other than zero** changes the sign by its own, and makes nothing smaller. -/
theorem mul_ofInt (h : HasSign s c) {e : Exponent} (he : e.val ≠ 0) :
    HasSign (s * e.sign) (c * ofInt e.val) ∧ SizeLe c (c * ofInt e.val) := by
  obtain ⟨n, hn⟩ := e.exists_roundsTo
  have hone := hn.unitsPerOne_le he
  rw [hn.ofInt_eq]
  cases h with
  | @number m hm =>
    rw [finite_mul_finite, ofQuotient]
    cases hround : Magnitude.round? (m.units * n.units) unitsPerOne with
    | none => exact ⟨.infinity, trivial⟩
    | some q =>
      -- The product with one is its own rounding, and rounding keeps the order.
      have hgrow : m.units ≤ q.units := by
        calc m.units = roundUnits (m.units * unitsPerOne) unitsPerOne :=
              (roundUnits_of_dvd unitsPerOne_pos m.spacing_dvd).symm
          _ ≤ roundUnits (m.units * n.units) unitsPerOne :=
              roundUnits_mono _ (Nat.mul_le_mul_left _ hone)
          _ = q.units := Magnitude.round?_eq_some_iff.1 hround
      refine ⟨.number ?_, Magnitude.value_le_value.2 hgrow⟩
      have hm : m.units ≠ 0 := by simpa [Magnitude.isZero] using hm
      simp only [Magnitude.isZero, beq_eq_false_iff_ne]
      omega
  | infinity =>
    have hzero : n.isZero = false := Bool.eq_false_iff.2 (mt hn.isZero_iff.1 he)
    have hmul : infinite s * finite e.sign n = infinite (s * e.sign) := by
      show (if n.isZero then nan else infinite (s * e.sign)) = _
      rw [hzero]
      rfl
    rw [hmul]
    exact ⟨.infinity, trivial⟩

end HasSign

/-- The exponent zero is a zero factor. -/
theorem ofInt_zero : ofInt 0 = zero := by decide +kernel

theorem isZero_mul_zero (h : c.isFinite = true) : (c * ofInt 0).isZero = true := by
  obtain ⟨s, m, rfl⟩ := exists_finite h
  rw [ofInt_zero, zero, finite_mul_finite, show m.units * Magnitude.zero.units = 0 from Nat.mul_zero _,
    ofQuotient, Magnitude.round?_zero unitsPerOne_pos]
  rfl

theorem infinite_mul_zero (s : Sign) : infinite s * ofInt 0 = nan := by
  rw [ofInt_zero]
  rfl

theorem nan_mul (d : Coefficient) : nan * d = nan := rfl

end Coefficient

/-! ### Runs -/

theorem Exponent.val_pred (e : Exponent) : e.pred.val = max (e.val - 1) (-9223372036854775808) := rfl

theorem Exponent.sign_of_neg {e : Exponent} (h : e.val < 0) : e.sign = .minus := if_pos h

theorem Exponent.sign_of_nonneg {e : Exponent} (h : 0 ≤ e.val) : e.sign = .plus :=
  if_neg (Int.not_lt.2 h)

namespace Term

variable {t : Term}

theorem nthDerivative_add (t : Term) (m n : Nat) :
    t.nthDerivative (m + n) = (t.nthDerivative m).nthDerivative n := by
  induction m generalizing t with
  | zero =>
    rw [Nat.zero_add]
    rfl
  | succ m ih =>
    rw [Nat.succ_add]
    exact ih t.derivative

theorem nthDerivative_succ (t : Term) (n : Nat) :
    t.nthDerivative (n + 1) = (t.nthDerivative n).derivative :=
  nthDerivative_add t n 1

/-- The exponent goes down by one each time, to the least one. -/
theorem exponent_nthDerivative (t : Term) (n : Nat) :
    (t.nthDerivative n).exponent.val = max (t.exponent.val - n) (-9223372036854775808) := by
  induction n with
  | zero =>
    have hle := t.exponent.le_val
    show t.exponent.val = _
    omega
  | succ n ih =>
    rw [nthDerivative_succ]
    show (t.nthDerivative n).exponent.pred.val = _
    rw [Exponent.val_pred, ih]
    omega

/-- Zero terms stay. -/
theorem isZero_nthDerivative (h : t.isZero = true) (n : Nat) : (t.nthDerivative n).isZero = true := by
  induction n generalizing t with
  | zero => exact h
  | succ n ih => exact ih (isZero_derivative h)

theorem nan_nthDerivative (h : t.coefficient = .nan) (n : Nat) :
    (t.nthDerivative n).coefficient = .nan := by
  induction n generalizing t with
  | zero => exact h
  | succ n ih =>
    refine ih ?_
    rw [derivative, h]
    exact Coefficient.nan_mul _

/-- No factor on the way to the derivative of this order is zero. -/
def KeepsAt (t : Term) (n : Nat) : Prop := t.exponent.val < 0 ∨ (n : Int) ≤ t.exponent.val

instance (t : Term) (n : Nat) : Decidable (t.KeepsAt n) := inferInstanceAs (Decidable (_ ∨ _))

theorem KeepsAt.of_succ {n : Nat} (h : t.KeepsAt (n + 1)) : t.KeepsAt n := by
  unfold KeepsAt at h ⊢
  omega

/-- The next factor is not zero, and it has the sign that the exponent has at first. -/
theorem KeepsAt.next_factor {n : Nat} (h : t.KeepsAt (n + 1)) :
    (t.nthDerivative n).exponent.val ≠ 0 ∧ (t.nthDerivative n).exponent.sign = t.exponent.sign := by
  have hexponent := exponent_nthDerivative t n
  rcases h with hneg | hle
  · have hnext : (t.nthDerivative n).exponent.val < 0 := by omega
    exact ⟨hnext.ne, (Exponent.sign_of_neg hnext).trans (Exponent.sign_of_neg hneg).symm⟩
  · have hnext : 0 < (t.nthDerivative n).exponent.val := by omega
    have hfirst : 0 ≤ t.exponent.val := by omega
    exact ⟨hnext.ne', (Exponent.sign_of_nonneg hnext.le).trans (Exponent.sign_of_nonneg hfirst).symm⟩

/-- The sign after `n` factors of the sign `r`. -/
def signAfter (r : Sign) : Nat → Sign → Sign
  | 0, s => s
  | n + 1, s => signAfter r n s * r

/-- **As long as no factor is zero** a term keeps a sign. -/
theorem hasSign_nthDerivative {s : Sign} (h : Coefficient.HasSign s t.coefficient) {n : Nat}
    (hkeeps : t.KeepsAt n) :
    Coefficient.HasSign (signAfter t.exponent.sign n s) (t.nthDerivative n).coefficient := by
  induction n with
  | zero => exact h
  | succ n ih =>
    obtain ⟨hne, hsign⟩ := hkeeps.next_factor
    have hstep := ((ih hkeeps.of_succ).mul_ofInt hne).1
    rw [hsign] at hstep
    rw [nthDerivative_succ]
    exact hstep

/-- And it becomes no smaller. -/
theorem sizeLe_nthDerivative {s : Sign} (h : Coefficient.HasSign s t.coefficient) {n : Nat}
    (hkeeps : t.KeepsAt (n + 1)) :
    Coefficient.SizeLe (t.nthDerivative n).coefficient (t.nthDerivative (n + 1)).coefficient := by
  rw [nthDerivative_succ]
  exact ((hasSign_nthDerivative h hkeeps.of_succ).mul_ofInt hkeeps.next_factor.1).2

/-- Factors of a negative exponent change the sign at odd orders, and others do not. -/
theorem signAfter_sign (e : Exponent) (s : Sign) (n : Nat) :
    signAfter e.sign n s = if e.val < 0 ∧ n % 2 = 1 then s * .minus else s := by
  induction n with
  | zero => rw [if_neg (by omega), signAfter]
  | succ n ih =>
    rw [signAfter, ih]
    by_cases he : e.val < 0
    · rw [Exponent.sign_of_neg he]
      rcases Nat.mod_two_eq_zero_or_one n with hn | hn
      · rw [if_neg (by omega), if_pos ⟨he, by omega⟩]
      · rw [if_pos ⟨he, hn⟩, if_neg (by omega), Sign.mul_assoc, Sign.mul_self, Sign.mul_plus]
    · rw [Exponent.sign_of_nonneg (Int.not_lt.1 he), if_neg (fun h => he h.1),
        if_neg (fun h => he h.1), Sign.mul_plus]

theorem isNegative_nthDerivative {s : Sign} (h : Coefficient.HasSign s t.coefficient) {n : Nat}
    (hkeeps : t.KeepsAt n) :
    (t.nthDerivative n).coefficient.isNegative
      = (t.coefficient.isNegative ^^ decide (t.exponent.val < 0 ∧ n % 2 = 1)) := by
  rw [(hasSign_nthDerivative h hkeeps).isNegative_eq, h.isNegative_eq, signAfter_sign]
  by_cases hodd : t.exponent.val < 0 ∧ n % 2 = 1
  · rw [if_pos hodd, decide_eq_true hodd]
    cases s <;> rfl
  · rw [if_neg hodd, decide_eq_false hodd, Bool.xor_false]

/-! ### The factor zero -/

/-- At its own order the exponent is zero. -/
theorem exponent_nthDerivative_self (h : 0 ≤ t.exponent.val) :
    (t.nthDerivative t.exponent.val.toNat).exponent.val = 0 := by
  rw [exponent_nthDerivative]
  omega

/-- Behind it a term is zero, or not a number. -/
theorem nthDerivative_of_lt (h : 0 ≤ t.exponent.val) {n : Nat} (hn : t.exponent.val < n) :
    ((t.nthDerivative t.exponent.val.toNat).coefficient.isFinite = true →
      (t.nthDerivative n).isZero = true) ∧
    (∀ s, (t.nthDerivative t.exponent.val.toNat).coefficient = .infinite s →
      (t.nthDerivative n).coefficient = .nan) := by
  obtain ⟨k, hk⟩ : ∃ k, n = t.exponent.val.toNat + 1 + k :=
    ⟨n - (t.exponent.val.toNat + 1), by omega⟩
  have hzero := exponent_nthDerivative_self h
  have hnext : (t.nthDerivative (t.exponent.val.toNat + 1)).coefficient
      = (t.nthDerivative t.exponent.val.toNat).coefficient * .ofInt 0 := by
    rw [nthDerivative_succ, derivative, hzero]
  rw [hk, nthDerivative_add]
  constructor
  · intro hfinite
    refine isZero_nthDerivative ?_ k
    rw [isZero, hnext]
    exact Coefficient.isZero_mul_zero hfinite
  · intro s hinfinite
    refine nan_nthDerivative ?_ k
    rw [hnext, hinfinite]
    exact Coefficient.infinite_mul_zero s

/-! ### The derivative of an order -/

/-- What becomes of a term with a finite coefficient at an order. -/
structure Vanishing (t : Term) (n : Nat) : Prop where
  exponent : (t.nthDerivative n).exponent.val = max (t.exponent.val - n) (-9223372036854775808)
  zero : t.isZero = true → (t.nthDerivative n).isZero = true
  /-- A term that no zero was multiplied to is there, and its sign is known. -/
  kept : t.isZero = false → t.KeepsAt n →
    (t.nthDerivative n).isZero = false ∧ (t.nthDerivative n).coefficient ≠ .nan ∧
      (t.nthDerivative n).coefficient.isNegative
        = (t.coefficient.isNegative ^^ decide (t.exponent.val < 0 ∧ n % 2 = 1))
  /-- It is no smaller than at the order before. -/
  grows : t.isZero = false → t.KeepsAt n → 0 < n →
    (t.nthDerivative (n - 1)).coefficient.SizeLe (t.nthDerivative n).coefficient
  /-- Any other is zero if it was finite when the zero came, and not a number if it was infinite. -/
  vanished : t.isZero = false → ¬ t.KeepsAt n →
    ((t.nthDerivative t.exponent.val.toNat).coefficient.isFinite = true ∧
      (t.nthDerivative n).isZero = true) ∨
    ((∃ s, (t.nthDerivative t.exponent.val.toNat).coefficient = .infinite s) ∧
      (t.nthDerivative n).coefficient = .nan)

theorem vanishing (h : t.coefficient.isFinite = true) (n : Nat) : t.Vanishing n := by
  refine ⟨exponent_nthDerivative t n, fun hzero => isZero_nthDerivative hzero n, ?_, ?_, ?_⟩
  · intro hne hkeeps
    obtain ⟨s, hs⟩ := Coefficient.exists_hasSign h hne
    have hsign := hasSign_nthDerivative hs hkeeps
    exact ⟨hsign.isZero_eq_false, hsign.ne_nan, isNegative_nthDerivative hs hkeeps⟩
  · intro hne hkeeps hpos
    obtain ⟨k, rfl⟩ := Nat.exists_eq_succ_of_ne_zero hpos.ne'
    obtain ⟨s, hs⟩ := Coefficient.exists_hasSign h hne
    exact sizeLe_nthDerivative hs hkeeps
  · intro hne hkeeps
    rw [KeepsAt, not_or, not_lt, not_le] at hkeeps
    obtain ⟨s, hs⟩ := Coefficient.exists_hasSign h hne
    -- Up to its own order the term was kept.
    have hself : t.KeepsAt t.exponent.val.toNat := .inr (Int.toNat_of_nonneg hkeeps.1).le
    have hsign := hasSign_nthDerivative hs hself
    obtain ⟨hfinite, hinfinite⟩ := nthDerivative_of_lt hkeeps.1 hkeeps.2
    cases hc : (t.nthDerivative t.exponent.val.toNat).coefficient.isFinite with
    | true => exact .inl ⟨rfl, hfinite hc⟩
    | false =>
      have heq := hsign.eq_infinite hc
      exact .inr ⟨⟨_, heq⟩, hinfinite _ heq⟩

/-- Whether the derivative of this order shows the term: it was not zero, and no zero was multiplied
to it while it was finite. -/
def IsShownAt (t : Term) (n : Nat) : Prop :=
  t.isZero = false ∧
    (t.KeepsAt n ∨ (t.nthDerivative t.exponent.val.toNat).coefficient.isFinite = false)

instance (t : Term) (n : Nat) : Decidable (t.IsShownAt n) := inferInstanceAs (Decidable (_ ∧ _))

theorem Vanishing.isZero_eq_false_iff {n : Nat} (h : t.Vanishing n) :
    (t.nthDerivative n).isZero = false ↔ t.IsShownAt n := by
  unfold IsShownAt
  cases ht : t.isZero with
  | true => simp [h.zero ht]
  | false =>
    by_cases hkeeps : t.KeepsAt n
    · simp [(h.kept ht hkeeps).1, hkeeps]
    · rcases h.vanished ht hkeeps with ⟨hfinite, hzero⟩ | ⟨⟨s, hinfinite⟩, hnan⟩
      · simp [hzero, hkeeps, hfinite]
      · simp [isZero, hnan, hinfinite, Coefficient.isZero, Coefficient.isFinite]

end Term

namespace Poly

theorem nthDerivative_eq_map (p : Poly) (n : Nat) :
    p.nthDerivative n = p.map fun t => t.nthDerivative n := by
  induction p with
  | nil => exact List.eq_nil_of_length_eq_zero (length_nthDerivative [] n)
  | cons t p ih => rw [nthDerivative_cons, ih, List.map_cons]

/-- The terms that the derivative of an order shows. -/
def shownAt (p : Poly) (n : Nat) : Poly :=
  (p.filter fun t => t.IsShownAt n).map fun t => t.nthDerivative n

theorem nonzero_nthDerivative_eq {p : Poly} {n : Nat} (h : ∀ t ∈ p, t.Vanishing n) :
    (p.nthDerivative n).nonzero = p.shownAt n := by
  rw [nthDerivative_eq_map, nonzero, shownAt, List.filter_map]
  refine congrArg (List.map _) (List.filter_congr ?_)
  intro t ht
  have hshown := (h t ht).isZero_eq_false_iff
  rw [Function.comp_apply, Bool.eq_iff_iff, Bool.not_eq_true', decide_eq_true_iff]
  exact hshown

/-- **Exactly the right terms vanish.**  The derivative of an order has the terms of the polynomial in
their order, each differentiated so often; which of them are zero and which are not numbers is decided by
their coefficients and exponents, and the text shows the others. -/
theorem nthDerivative_vanishing {p : Poly} (h : ∀ t ∈ p, t.coefficient.isFinite = true) (n : Nat) :
    (∀ k, p.nthDerivative k = p.map fun t => t.nthDerivative k) ∧
    (∀ t ∈ p, t.Vanishing n) ∧
    (p.nthDerivative n).nonzero = p.shownAt n ∧
    (p.nthDerivative n).text = (p.shownAt n).text := by
  have hterms : ∀ t ∈ p, t.Vanishing n := fun t ht => Term.vanishing (h t ht) n
  have hnonzero := nonzero_nthDerivative_eq hterms
  refine ⟨nthDerivative_eq_map p, hterms, hnonzero, text_congr ?_⟩
  rw [← hnonzero, nonzero_nonzero]

/-- A power with the greatest coefficient, which is infinite before the zero comes; a negative power; a
constant; a negative zero. -/
def fading : Poly :=
  [⟨.finite .plus .greatest, ⟨4, by decide, by decide⟩⟩, ⟨.ofInt (-1), ⟨-7, by decide, by decide⟩⟩,
    ⟨.ofInt 5, .zero⟩, ⟨.finite .minus .zero, .least⟩]

theorem nthDerivative_vanishing_fading :
    (∀ t ∈ fading, t.coefficient.isFinite = true) ∧ (∀ t ∈ fading, t.Vanishing 5) ∧
      (fading.nthDerivative 5).text = "NaNx^-1+55440x^-12" := by
  have hfinite : ∀ t ∈ fading, t.coefficient.isFinite = true := by decide +kernel
  obtain ⟨_, hterms, _, htext⟩ := nthDerivative_vanishing hfinite 5
  refine ⟨hfinite, hterms, htext.trans ?_⟩
  decide +kernel

end Poly

end PowerRule
