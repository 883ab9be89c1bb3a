import Mathlib.Algebra.Order.Field.Basic
import Mathlib.Data.Rat.Cast.Order
import Mathlib.Tactic.FieldSimp
import Mathlib.Tactic.Linarith
import Mathlib.Tactic.Positivity
import Mathlib.Tactic.Ring
import PowerRule.Magnitude.OfDecimal

/-!
Rounding to the nearest number of the format.

A magnitude has the value `units / 2 ^ 1074`.  It is nearest to a number if no magnitude has a value
nearer to that number, and if its significand is even in case another one is equally near.  There is
only one such magnitude (`IsNearest.eq`), and it is what a quotient is rounded to:

    round? num den = some m    →   m.IsNearest (num / den / 2 ^ 1074)
    round? num den = none      ↔   2 ^ 1024 - 2 ^ 970 ≤ num / den / 2 ^ 1074

The grid of the format goes on beyond the limit, and most of this is about the grid alone, in units.  A
quotient lies in a step of its own spacing (`gridFloor`, `gridCeil`), no number of the grid lies inside
the step, and rounding goes to the nearer end of it.  Both ends of a step are one significand apart, so
one of them is even; the same argument, from one magnitude to the next, leaves only one nearest.
-/

namespace PowerRule

/-! ### Significands -/

/-- The whole number in front of the spacing. -/
def significand (units : Nat) : Nat := units / spacing units

theorem significand_mul_spacing {n : Nat} (h : spacing n ∣ n) : significand n * spacing n = n :=
  Nat.div_mul_cancel h

theorem significand_lt (n : Nat) : significand n < 2 ^ (53 : Nat) := div_spacing_lt n

theorem le_significand {n : Nat} (h : 0 < binade n) : 2 ^ (52 : Nat) ≤ significand n :=
  le_div_spacing h

/-- A number of 53 bits has its binade where all of them count, or where there is none below. -/
theorem binade_mul_two_pow {k b : Nat} (hlt : k < 2 ^ (53 : Nat)) (hfull : 0 < b → 2 ^ (52 : Nat) ≤ k) :
    binade (k * 2 ^ b) = b := by
  apply Nat.le_antisymm
  · apply binade_le_of_lt
    rw [Nat.pow_add]
    exact (Nat.mul_lt_mul_right (Nat.two_pow_pos b)).2 hlt
  · rcases Nat.eq_zero_or_pos b with rfl | hb
    · exact Nat.zero_le _
    · calc b = binade (2 ^ (52 + b)) := by rw [binade_two_pow]; omega
        _ ≤ binade (k * 2 ^ b) := by
          rw [Nat.pow_add]
          exact binade_mono (Nat.mul_le_mul_right _ (hfull hb))

theorem significand_mul_two_pow {k b : Nat} (hlt : k < 2 ^ (53 : Nat))
    (hfull : 0 < b → 2 ^ (52 : Nat) ≤ k) : significand (k * 2 ^ b) = k := by
  rw [significand, spacing, binade_mul_two_pow hlt hfull, Nat.mul_div_cancel _ (Nat.two_pow_pos b)]

/-! ### The step of a quotient -/

section Steps

variable (num den : Nat)

/-- The last number of the grid that is not above `num / den`. -/
def gridFloor : Nat := significand (num / den) * spacing (num / den)

/-- The first number of the grid above `num / den`. -/
def gridCeil : Nat := gridFloor num den + spacing (num / den)

/-- No number of the grid lies between the two. -/
theorem le_gridFloor_or_gridCeil_le {n : Nat} (h : spacing n ∣ n) :
    n ≤ gridFloor num den ∨ gridCeil num den ≤ n := by
  rcases Nat.lt_or_ge (binade n) (binade (num / den)) with hlt | hge
  · -- All numbers of a lower binade are below.
    refine .inl (Nat.le_of_lt ?_)
    calc n < 2 ^ (53 + binade n) := lt_two_pow_binade n
      _ ≤ 2 ^ (52 + binade (num / den)) := Nat.pow_le_pow_right (by decide) (by omega)
      _ = 2 ^ (52 : Nat) * spacing (num / den) := Nat.pow_add ..
      _ ≤ gridFloor num den :=
        Nat.mul_le_mul_right _ (le_significand (Nat.zero_lt_of_lt hlt))
  · obtain ⟨k, rfl⟩ := Nat.dvd_trans (Nat.pow_dvd_pow 2 hge) h
    rw [gridCeil, gridFloor, Nat.mul_comm _ k, ← Nat.succ_mul]
    rcases Nat.lt_or_ge (significand (num / den)) k with hk | hk
    · exact .inr (Nat.mul_le_mul_right _ hk)
    · exact .inl (Nat.mul_le_mul_right _ hk)

theorem significand_div : significand (num / den) = num / (den * spacing (num / den)) :=
  Nat.div_div_eq_div_mul ..

theorem cast_gridCeil : (gridCeil num den : ℚ) = gridFloor num den + spacing (num / den) := by
  rw [gridCeil, Nat.cast_add]

/-- An even multiple of the spacing has an even significand.  Should the multiple have 54 bits, it is
the next power of two. -/
theorem even_significand_roundUnits {num den : Nat}
    (heven : roundDiv num (den * spacing (num / den)) % 2 = 0) :
    significand (roundUnits num den) % 2 = 0 := by
  have hle := roundDiv_spacing_le num den
  have hge := div_le_roundDiv num (den * spacing (num / den))
  rw [← significand_div num den] at hge
  rw [roundUnits]
  generalize roundDiv num (den * spacing (num / den)) = k at heven hle hge ⊢
  rcases Nat.lt_or_eq_of_le hle with hlt | rfl
  · rw [spacing, significand_mul_two_pow hlt fun hb => Nat.le_trans (le_significand hb) hge]
    exact heven
  · have hdouble : 2 ^ (53 : Nat) * spacing (num / den)
        = 2 ^ (52 : Nat) * 2 ^ (binade (num / den) + 1) := by
      rw [spacing, ← Nat.pow_add, ← Nat.pow_add]
      congr 1
      omega
    rw [hdouble, significand_mul_two_pow (by decide) fun _ => Nat.le_refl _]

variable {den} (hden : 0 < den)

include hden

/-- What a quotient has above the grid. -/
theorem div_eq_gridFloor_add :
    (num : ℚ) / den
      = gridFloor num den + (num % (den * spacing (num / den)) : Nat) / (den : ℚ) := by
  have hdenQ : (den : ℚ) ≠ 0 := by exact_mod_cast hden.ne'
  have hsum := Nat.div_add_mod num (den * spacing (num / den))
  rw [← significand_div num den, Nat.mul_assoc, Nat.mul_comm (spacing _)] at hsum
  have hsumQ : (den : ℚ) * gridFloor num den + (num % (den * spacing (num / den)) : Nat) = num := by
    rw [gridFloor]
    exact_mod_cast hsum
  rw [← hsumQ, add_div, mul_div_cancel_left₀ _ hdenQ]

theorem gridFloor_le_div : (gridFloor num den : ℚ) ≤ num / den := by
  rw [div_eq_gridFloor_add num hden]
  exact le_add_of_nonneg_right (by positivity)

theorem div_lt_gridCeil : (num : ℚ) / den < gridCeil num den := by
  have hdenQ : (0 : ℚ) < den := by exact_mod_cast hden
  have hlt := Nat.mod_lt num (Nat.mul_pos hden (spacing_pos (num / den)))
  rw [div_eq_gridFloor_add num hden, gridCeil, Nat.cast_add]
  refine add_lt_add_right ?_ _
  rw [div_lt_iff₀' hdenQ]
  exact_mod_cast hlt

/-- Rounding goes to the nearer end of the step, and from its middle to an even one. -/
theorem roundUnits_cases :
    (2 * ((num : ℚ) / den - gridFloor num den) < spacing (num / den) ∧
      roundUnits num den = gridFloor num den) ∨
    (spacing (num / den) < 2 * ((num : ℚ) / den - gridFloor num den) ∧
      roundUnits num den = gridCeil num den) ∨
    (2 * ((num : ℚ) / den - gridFloor num den) = spacing (num / den) ∧
      (roundUnits num den = gridFloor num den ∨ roundUnits num den = gridCeil num den) ∧
      significand (roundUnits num den) % 2 = 0) := by
  have hdenQ : (0 : ℚ) < den := by exact_mod_cast hden
  -- Twice the excess over the lower end, as a natural number over the denominator: this is what the
  -- integer division compares with its half.
  have hexcess : 2 * ((num : ℚ) / den - gridFloor num den)
      = (2 * (num % (den * spacing (num / den))) : Nat) / (den : ℚ) := by
    rw [div_eq_gridFloor_add num hden, add_sub_cancel_left]
    push_cast
    ring
  have hfloor : significand (num / den) * spacing (num / den) = gridFloor num den := rfl
  have hceil : (significand (num / den) + 1) * spacing (num / den) = gridCeil num den := by
    rw [Nat.add_mul, Nat.one_mul, gridCeil, gridFloor]
  have hround : roundUnits num den
      = roundDiv num (den * spacing (num / den)) * spacing (num / den) := rfl
  rw [hexcess]
  rcases roundDiv_cases num (den * spacing (num / den)) with ⟨hlt, hr⟩ | ⟨hgt, hr⟩ | ⟨heq, hr⟩
  · refine .inl ⟨?_, by rw [hround, hr, ← significand_div num den, hfloor]⟩
    rw [div_lt_iff₀' hdenQ]
    exact_mod_cast hlt
  · refine .inr (.inl ⟨?_, by rw [hround, hr, ← significand_div num den, hceil]⟩)
    rw [lt_div_iff₀' hdenQ]
    exact_mod_cast hgt
  · refine .inr (.inr ⟨?_, ?_, even_significand_roundUnits (roundDiv_even_of_half heq)⟩)
    · rw [div_eq_iff hdenQ.ne', mul_comm (spacing _ : ℚ)]
      exact_mod_cast heq
    · rw [hround, hr, ← significand_div num den]
      rcases Nat.mod_two_eq_zero_or_one (significand (num / den)) with h | h
      · exact .inl (by rw [h, Nat.add_zero, hfloor])
      · exact .inr (by rw [h, hceil])

/-! ### Nearest on the grid -/

/-- No number of the grid is nearer to `x`, and if another is equally near the significand is even. -/
structure IsNearestUnits (units : Nat) (x : ℚ) : Prop where
  nearest : ∀ n, spacing n ∣ n → |x - units| ≤ |x - n|
  even_of_tie : ∀ n, spacing n ∣ n → n ≠ units → |x - n| = |x - units| → significand units % 2 = 0

theorem abs_sub_gridFloor :
    |(num : ℚ) / den - gridFloor num den| = num / den - gridFloor num den :=
  abs_of_nonneg (sub_nonneg.2 (gridFloor_le_div num hden))

theorem abs_sub_gridCeil :
    |(num : ℚ) / den - gridCeil num den| = gridCeil num den - num / den := by
  rw [abs_sub_comm]
  exact abs_of_nonneg (sub_nonneg.2 (div_lt_gridCeil num hden).le)

/-- From any number of the grid to the quotient it is at least as far as from one end of the step. -/
theorem abs_sub_of_spacing_dvd {n : Nat} (h : spacing n ∣ n) :
    ((n : ℚ) ≤ gridFloor num den ∧ |(num : ℚ) / den - n| = num / den - n) ∨
    ((gridCeil num den : ℚ) ≤ n ∧ |(num : ℚ) / den - n| = n - num / den) := by
  rcases le_gridFloor_or_gridCeil_le num den h with hle | hge
  · have hleQ : (n : ℚ) ≤ gridFloor num den := by exact_mod_cast hle
    exact .inl ⟨hleQ, abs_of_nonneg (sub_nonneg.2 (hleQ.trans (gridFloor_le_div num hden)))⟩
  · have hgeQ : (gridCeil num den : ℚ) ≤ n := by exact_mod_cast hge
    refine .inr ⟨hgeQ, ?_⟩
    rw [abs_sub_comm]
    exact abs_of_nonneg (sub_nonneg.2 ((div_lt_gridCeil num hden).le.trans hgeQ))

/-- Rounding goes no farther than to either end of the step. -/
theorem abs_sub_roundUnits_le :
    |(num : ℚ) / den - roundUnits num den| ≤ num / den - gridFloor num den ∧
    |(num : ℚ) / den - roundUnits num den| ≤ gridCeil num den - num / den := by
  rw [← abs_sub_gridFloor num hden, ← abs_sub_gridCeil num hden]
  have hfloor := abs_sub_gridFloor num hden
  have hceil := abs_sub_gridCeil num hden
  have hstep := cast_gridCeil num den
  rcases roundUnits_cases num hden with ⟨_, hr⟩ | ⟨_, hr⟩ | ⟨_, hr | hr, _⟩ <;>
    rw [hr] <;> constructor <;> linarith

/-- **Rounding goes to the nearest number of the grid.** -/
theorem isNearestUnits_roundUnits :
    IsNearestUnits (roundUnits num den) (num / den) := by
  constructor
  · intro n hn
    obtain ⟨hfloor, hceil⟩ := abs_sub_roundUnits_le num hden
    rcases abs_sub_of_spacing_dvd num hden hn with ⟨hside, habs⟩ | ⟨hside, habs⟩ <;>
      rw [habs] <;> linarith
  · intro n hn hne htie
    have hstep := cast_gridCeil num den
    rcases roundUnits_cases num hden with ⟨hlt, hr⟩ | ⟨hgt, hr⟩ | ⟨_, _, heven⟩
    · -- Nothing else is as near as the floor.
      rw [hr, abs_sub_gridFloor num hden] at htie
      rcases abs_sub_of_spacing_dvd num hden hn with ⟨hside, habs⟩ | ⟨hside, habs⟩
      · have heq : (n : ℚ) = gridFloor num den := by linarith
        exact absurd (by rw [hr]; exact_mod_cast heq) hne
      · linarith
    · -- Nothing else is as near as the number above.
      rw [hr, abs_sub_gridCeil num hden] at htie
      rcases abs_sub_of_spacing_dvd num hden hn with ⟨hside, habs⟩ | ⟨hside, habs⟩
      · linarith
      · have heq : (n : ℚ) = gridCeil num den := by linarith
        exact absurd (by rw [hr]; exact_mod_cast heq) hne
    · exact heven

end Steps

/-! ### From one number of the grid to the next -/

section Next

variable {n : Nat} (h : spacing n ∣ n)

include h

theorem add_spacing_eq : n + spacing n = (significand n + 1) * 2 ^ binade n := by
  have hn := significand_mul_spacing h
  rw [Nat.add_mul, Nat.one_mul]
  exact congrArg (· + spacing n) hn.symm

theorem spacing_dvd_add_spacing : spacing (n + spacing n) ∣ n + spacing n := by
  rw [add_spacing_eq h]
  exact spacing_dvd_mul_two_pow_of_le (significand_lt n) _

theorem add_spacing_le {k : Nat} (hk : spacing k ∣ k) (hlt : n < k) : n + spacing n ≤ k := by
  have hstep := le_gridFloor_or_gridCeil_le n 1 hk
  rw [gridCeil, gridFloor, Nat.div_one, significand_mul_spacing h] at hstep
  exact hstep.resolve_left (Nat.not_le.2 hlt)

/-- Behind an even significand comes an odd one. -/
theorem significand_add_spacing (heven : significand n % 2 = 0) :
    significand (n + spacing n) = significand n + 1 := by
  have hlt := significand_lt n
  rw [add_spacing_eq h, significand_mul_two_pow]
  · omega
  · exact fun hb => Nat.le_succ_of_le (le_significand hb)

end Next

/-! ### Values -/

namespace Magnitude

/-- The number that a magnitude is. -/
def value (m : Magnitude) : ℚ := m.units / 2 ^ (1074 : ℕ)

/-- No magnitude is nearer to `v`, and if another is equally near the significand is even. -/
structure IsNearest (m : Magnitude) (v : ℚ) : Prop where
  nearest : ∀ n : Magnitude, |v - m.value| ≤ |v - n.value|
  even_of_tie : ∀ n : Magnitude, n ≠ m → |v - n.value| = |v - m.value| →
    significand m.units % 2 = 0

theorem abs_sub_value (x : ℚ) (m : Magnitude) :
    |x / 2 ^ (1074 : ℕ) - m.value| = |x - m.units| / 2 ^ (1074 : ℕ) := by
  rw [value, ← sub_div, abs_div, abs_of_pos (by positivity : (0 : ℚ) < 2 ^ (1074 : ℕ))]

theorem isNearest_of_isNearestUnits {m : Magnitude} {x : ℚ} (h : IsNearestUnits m.units x) :
    m.IsNearest (x / 2 ^ (1074 : ℕ)) := by
  have hpos : (0 : ℚ) < 2 ^ (1074 : ℕ) := by positivity
  constructor
  · intro n
    rw [abs_sub_value, abs_sub_value]
    exact div_le_div_of_nonneg_right (h.nearest n.units n.spacing_dvd) hpos.le
  · intro n hne htie
    rw [abs_sub_value, abs_sub_value, div_left_inj' hpos.ne'] at htie
    exact h.even_of_tie n.units n.spacing_dvd (fun heq => hne (Magnitude.ext heq)) htie

/-- **Rounding a quotient of units gives the nearest magnitude.** -/
theorem isNearest_of_round? {num den : Nat} (hden : 0 < den) {m : Magnitude}
    (h : round? num den = some m) : m.IsNearest ((num : ℚ) / den / 2 ^ (1074 : ℕ)) := by
  have hnear := isNearestUnits_roundUnits num hden
  rw [round?_eq_some_iff.1 h] at hnear
  exact isNearest_of_isNearestUnits hnear

theorem value_lt_value {m n : Magnitude} (h : m.units < n.units) : m.value < n.value :=
  div_lt_div_of_pos_right (by exact_mod_cast h) (by positivity)

theorem value_nonneg (m : Magnitude) : 0 ≤ m.value := by
  unfold value
  positivity

theorem value_le_value {m n : Magnitude} : m.value ≤ n.value ↔ m.units ≤ n.units := by
  rw [value, value, div_le_div_iff_of_pos_right (by positivity), Nat.cast_le]

theorem value_injective {m n : Magnitude} (h : m.value = n.value) : m = n :=
  Magnitude.ext (Nat.le_antisymm (value_le_value.1 h.le) (value_le_value.1 h.ge))

/-- The next magnitude, as far as the limit allows. -/
def next (m : Magnitude) (h : m.units + spacing m.units < unitLimit) : Magnitude where
  units := m.units + spacing m.units
  units_lt := h
  spacing_dvd := spacing_dvd_add_spacing m.spacing_dvd

theorem value_lt_next (m : Magnitude) (h : m.units + spacing m.units < unitLimit) :
    m.value < (m.next h).value :=
  value_lt_value (Nat.lt_add_of_pos_right (spacing_pos _))

/-- Two magnitudes with even significands have another one between them, which is nearer to their
middle. -/
theorem IsNearest.not_lt {m n : Magnitude} {v : ℚ} (hm : m.IsNearest v) (hn : n.IsNearest v) :
    ¬ m.units < n.units := by
  intro hlt
  have htie : |v - n.value| = |v - m.value| := le_antisymm (hn.nearest m) (hm.nearest n)
  have hne : n ≠ m := fun h => Nat.ne_of_lt hlt (congrArg units h.symm)
  have hmeven := hm.even_of_tie n hne htie
  have hneven := hn.even_of_tie m hne.symm htie.symm
  have hle := add_spacing_le m.spacing_dvd n.spacing_dvd hlt
  have hlimit := Nat.lt_of_le_of_lt hle n.units_lt
  have hmnext := m.value_lt_next hlimit
  have hmiddle : v - m.value = n.value - v := by
    have hvalue := value_lt_value hlt
    rcases abs_eq_abs.1 htie with h | h <;> linarith
  rcases Nat.lt_or_eq_of_le hle with hlt' | heq
  · have hnextn : (m.next hlimit).value < n.value := value_lt_value hlt'
    have hnearer : |v - (m.next hlimit).value| < |v - m.value| := by
      rw [abs_of_nonneg (by linarith : 0 ≤ v - m.value)]
      exact abs_lt.2 ⟨by linarith, by linarith⟩
    exact absurd (hm.nearest (m.next hlimit)) (not_le.2 hnearer)
  · have hodd := significand_add_spacing m.spacing_dvd hmeven
    rw [heq] at hodd
    omega

/-- **There is only one nearest magnitude.** -/
theorem IsNearest.eq {m n : Magnitude} {v : ℚ} (hm : m.IsNearest v) (hn : n.IsNearest v) : m = n :=
  Magnitude.ext (Nat.le_antisymm (Nat.not_lt.1 (hn.not_lt hm)) (Nat.not_lt.1 (hm.not_lt hn)))

@[simp] theorem value_zero : zero.value = 0 := by
  rw [value, zero, Nat.cast_zero, zero_div]

/-- What is at most half the least positive magnitude is nearest to zero. -/
theorem isNearest_zero {v : ℚ} (hv : 0 ≤ v) (h : v ≤ 1 / 2 ^ (1075 : ℕ)) : zero.IsNearest v := by
  constructor
  · intro n
    rcases Nat.eq_zero_or_pos n.units with h0 | hpos
    · rw [show n = zero from Magnitude.ext h0]
    · have hone : (1 : ℚ) ≤ n.units := by exact_mod_cast hpos
      have hleast : 1 / 2 ^ (1074 : ℕ) ≤ n.value := div_le_div_of_nonneg_right hone (by positivity)
      have hhalf : (1 : ℚ) / 2 ^ (1075 : ℕ) = 1 / 2 ^ (1074 : ℕ) / 2 := by
        rw [div_div]
        exact congrArg (1 / ·) (pow_succ 2 (1074 : ℕ))
      have hdouble : v ≤ n.value / 2 := by
        refine h.trans ?_
        rw [hhalf]
        exact div_le_div_of_nonneg_right hleast (by norm_num)
      rw [value_zero, sub_zero, abs_of_nonneg hv, abs_sub_comm]
      exact le_trans (by linarith only [hdouble]) (le_abs_self _)
  · intros
    rfl

/-! ### Overflow -/

/-- The greatest magnitude, `2 ^ 1024 - 2 ^ 971`. -/
def greatest : Magnitude where
  units := 2 ^ (2098 : Nat) - 2 ^ (2045 : Nat)
  units_lt := by decide +kernel
  spacing_dvd := by decide +kernel

/-- The middle between the greatest magnitude and the limit, in units. -/
@[irreducible] def overflowUnits : Nat := 2 ^ (2098 : Nat) - 2 ^ (2044 : Nat)

theorem roundUnits_overflowUnits : roundUnits overflowUnits 1 = unitLimit := by decide +kernel

/-- It is in the middle. -/
theorem exists_half : ∃ half : Nat, 0 < half ∧ greatest.units + 2 * half = unitLimit ∧
    overflowUnits + half = unitLimit :=
  ⟨2 ^ (2044 : Nat), by decide +kernel, by decide +kernel, by decide +kernel⟩

/-- Rounding leaves the format from this middle on. -/
theorem unitLimit_le_roundUnits_iff {num den : Nat} (hden : 0 < den) :
    unitLimit ≤ roundUnits num den ↔ (overflowUnits : ℚ) ≤ num / den := by
  have hdenQ : (0 : ℚ) < den := by exact_mod_cast hden
  constructor
  · intro hlimit
    by_contra hlt
    rw [not_le] at hlt
    have hnear := (isNearestUnits_roundUnits num hden).nearest greatest.units greatest.spacing_dvd
    obtain ⟨half, hhalf, hgreatest, hoverflow⟩ := exists_half
    have hlimitQ : (unitLimit : ℚ) ≤ roundUnits num den := by exact_mod_cast hlimit
    have hhalfQ : (0 : ℚ) < half := by exact_mod_cast hhalf
    have hgreatestQ : (greatest.units : ℚ) + 2 * half = unitLimit := by exact_mod_cast hgreatest
    have hoverflowQ : (overflowUnits : ℚ) + half = unitLimit := by exact_mod_cast hoverflow
    -- The quotient is nearer to the greatest magnitude than to anything beyond the limit.
    have hfar : |(num : ℚ) / den - greatest.units| < |(num : ℚ) / den - roundUnits num den| :=
      calc |(num : ℚ) / den - greatest.units| < roundUnits num den - num / den :=
            abs_lt.2 ⟨by linarith, by linarith⟩
        _ ≤ |(roundUnits num den : ℚ) - num / den| := le_abs_self _
        _ = |(num : ℚ) / den - roundUnits num den| := abs_sub_comm ..
    exact absurd hnear (not_le.2 hfar)
  · intro hle
    rw [le_div_iff₀ hdenQ] at hle
    have hleN : overflowUnits * den ≤ num := by exact_mod_cast hle
    calc unitLimit = roundUnits (overflowUnits * den) (1 * den) := by
          rw [roundUnits_mul_mul_right _ _ hden, roundUnits_overflowUnits]
      _ ≤ roundUnits num den := by
          rw [Nat.one_mul]
          exact roundUnits_mono den hleN

theorem cast_div_two_pow {n a b c : Nat} (h : n + 2 ^ b * 2 ^ c = 2 ^ a * 2 ^ c) :
    (n : ℚ) / 2 ^ c = 2 ^ a - 2 ^ b := by
  have hpos : (0 : ℚ) < 2 ^ c := by positivity
  have hsum : (n : ℚ) + 2 ^ b * 2 ^ c = 2 ^ a * 2 ^ c := by exact_mod_cast h
  rw [div_eq_iff hpos.ne', sub_mul, ← hsum, add_sub_cancel_right]

theorem cast_overflowUnits :
    (overflowUnits : ℚ) / 2 ^ (1074 : ℕ) = 2 ^ (1024 : ℕ) - 2 ^ (970 : ℕ) :=
  cast_div_two_pow (by decide +kernel)

/-- **Rounding gives nothing exactly from the middle behind the greatest magnitude on.** -/
theorem round?_eq_none_iff_le {num den : Nat} (hden : 0 < den) :
    round? num den = none
      ↔ (2 ^ (1024 : ℕ) - 2 ^ (970 : ℕ) : ℚ) ≤ num / den / 2 ^ (1074 : ℕ) := by
  rw [round?_eq_none_iff, unitLimit_le_roundUnits_iff hden, ← cast_overflowUnits]
  exact (div_le_div_iff_of_pos_right (by positivity)).symm

end Magnitude

/-! ### Decimals -/

/-- The number that a decimal is. -/
def Decimal.value (d : Decimal) : ℚ := d.significand * 10 ^ d.exponent

theorem cast_of_eq_two_pow {n k : Nat} (h : n = 2 ^ k) : (n : ℚ) = 2 ^ k := by
  exact_mod_cast h

theorem cast_unitsPerOne : (unitsPerOne : ℚ) = 2 ^ (1074 : ℕ) :=
  cast_of_eq_two_pow (by decide +kernel)

namespace Magnitude

/-- The quotient of units that a decimal is rounded from. -/
theorem quotient_eq_value (d : Decimal) :
    (d.significand * 10 ^ d.exponent.toNat * unitsPerOne : Nat) / (10 ^ (-d.exponent).toNat : Nat)
      / 2 ^ (1074 : ℕ) = d.value := by
  have hsplit : d.exponent = (d.exponent.toNat : ℤ) - ((-d.exponent).toNat : ℤ) := by omega
  have hscale : (10 : ℚ) ^ d.exponent
      = 10 ^ d.exponent.toNat / 10 ^ (-d.exponent).toNat := by
    conv_lhs => rw [hsplit]
    rw [zpow_sub₀ (by norm_num), zpow_natCast, zpow_natCast]
  have hpos : (0 : ℚ) < unitsPerOne := by exact_mod_cast unitsPerOne_pos
  rw [Decimal.value, hscale, ← cast_unitsPerOne, Nat.cast_mul, Nat.cast_mul, Nat.cast_pow,
    Nat.cast_pow, Nat.cast_ofNat, div_right_comm, mul_div_cancel_right₀ _ hpos.ne', mul_div_assoc]

/-- **A decimal is rounded to the nearest magnitude.** -/
theorem isNearest_of_ofDecimal? {d : Decimal} {m : Magnitude} (h : ofDecimal? d = some m) :
    m.IsNearest d.value := by
  have hnear := isNearest_of_round? (Nat.pow_pos (by decide)) h
  rwa [quotient_eq_value] at hnear

/-- **A decimal has no magnitude exactly from the middle behind the greatest magnitude on.** -/
theorem ofDecimal?_eq_none_iff (d : Decimal) :
    ofDecimal? d = none ↔ (2 ^ (1024 : ℕ) - 2 ^ (970 : ℕ) : ℚ) ≤ d.value := by
  rw [ofDecimal?, round?_eq_none_iff_le (Nat.pow_pos (by decide)), quotient_eq_value]

end Magnitude

end PowerRule
