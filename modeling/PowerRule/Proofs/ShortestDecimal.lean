import Mathlib.Algebra.Order.Ring.Abs
import PowerRule.Proofs.Nearest
import PowerRule.Proofs.Whole

/-!
The shortest decimal of a magnitude, among all decimals that read back as it.

What a decimal is read as depends on the number that it is, and the numbers that are read as `m` are an
interval around `m` (`IsRoundingOf.of_between`).  So on each grid it is enough to ask the two points
beside `m`, and a grid without an answer has no point in the interval at all.  On a grid coarser than the
first one that is asked the only point that could be near enough is zero.  Hence the search stops on the
coarsest grid of all, at a point of it that is nearest to `m`:

    m.IsReadFrom d'                                     →   d'.exponent ≤ m.shortest.exponent
    m.IsReadFrom d', d'.exponent = m.shortest.exponent  →   m.shortest is no farther from m than d'

The coarsest grid leaves the fewest digits.  For take a number of `c + 1` digits there, and another one
that is read as `m` and has fewer digits, or as many on a finer grid.  Then a power of ten, with `c`
zeros on the coarsest grid, lies between the two; it is on a coarser grid still, unless `c = 0`.  So only
numbers of one digit are left, at most nine steps of a grid on one side and ten of them on the other.
There is one magnitude only that both are read as, of two units, and ten steps are nearer to it.

Main statements: `Magnitude.isCoarsest_shortest`, `IsCoarsest.digits_le`, `IsCoarsest.nearest_of_digits`.
-/

namespace PowerRule

/-! ### Distances -/

section Distances

variable {v x y : ℚ}

/-- Of two numbers the lower is the nearer one up to their middle. -/
theorem abs_sub_lower_le_iff (h : x < y) : |v - x| ≤ |v - y| ↔ 2 * v ≤ x + y := by
  have hsquares : (v - y) ^ 2 - (v - x) ^ 2 = (y - x) * (x + y - 2 * v) := by ring
  rw [← sq_le_sq, ← sub_nonneg, hsquares, mul_nonneg_iff_of_pos_left (sub_pos.2 h), sub_nonneg]

/-- The upper one is the nearer one from there on. -/
theorem abs_sub_upper_le_iff (h : x < y) : |v - y| ≤ |v - x| ↔ x + y ≤ 2 * v := by
  have hsquares : (v - x) ^ 2 - (v - y) ^ 2 = (y - x) * (2 * v - (x + y)) := by ring
  rw [← sq_le_sq, ← sub_nonneg, hsquares, mul_nonneg_iff_of_pos_left (sub_pos.2 h), sub_nonneg]

end Distances

/-! ### Digits and size -/

namespace Decimal

variable {d : Decimal} {c : Nat}

theorem zpow_le_value (h : 10 ^ c ≤ d.significand) : (10 : ℚ) ^ (c + d.exponent) ≤ d.value := by
  rw [zpow_add₀ (by norm_num), zpow_natCast]
  exact mul_le_mul_of_nonneg_right (by exact_mod_cast h) (zpow_nonneg (by norm_num) _)

theorem value_lt_zpow (h : d.significand < 10 ^ c) : d.value < (10 : ℚ) ^ (c + d.exponent) := by
  rw [zpow_add₀ (by norm_num), zpow_natCast]
  exact mul_lt_mul_of_pos_right (by exact_mod_cast h) (zpow_pos (by norm_num) _)

end Decimal

namespace Magnitude

variable {m : Magnitude}

/-! ### The numbers that are read as a magnitude -/

namespace IsNearest

variable {a b c v : ℚ}

/-- They have no gaps. -/
theorem of_between (ha : m.IsNearest a) (hc : m.IsNearest c) (hab : a ≤ b) (hbc : b ≤ c) :
    m.IsNearest b := by
  constructor
  · intro n
    rcases lt_trichotomy m.value n.value with hlt | heq | hgt
    · have hmiddle := (abs_sub_lower_le_iff hlt).1 (hc.nearest n)
      exact (abs_sub_lower_le_iff hlt).2 (by linarith)
    · rw [heq]
    · have hmiddle := (abs_sub_upper_le_iff hgt).1 (ha.nearest n)
      exact (abs_sub_upper_le_iff hgt).2 (by linarith)
  · -- The middle to another magnitude can only be an end of the interval.
    intro n hne htie
    rcases lt_trichotomy m.value n.value with hlt | heq | hgt
    · have hmiddle := (abs_sub_upper_le_iff hlt).1 htie.le
      have hle := (abs_sub_lower_le_iff hlt).1 (hc.nearest n)
      obtain rfl : b = c := by linarith
      exact hc.even_of_tie n hne htie
    · exact absurd (value_injective heq).symm hne
    · have hmiddle := (abs_sub_lower_le_iff hgt).1 htie.le
      have hle := (abs_sub_upper_le_iff hgt).1 (ha.nearest n)
      obtain rfl : b = a := by linarith
      exact ha.even_of_tie n hne htie

/-- They do not reach beyond another magnitude above, -/
theorem le_value (h : m.IsNearest v) {n : Magnitude} (hn : m.value < n.value) : v ≤ n.value := by
  have := (abs_sub_lower_le_iff hn).1 (h.nearest n)
  linarith

/-- nor beyond one below. -/
theorem value_le (h : m.IsNearest v) {n : Magnitude} (hn : n.value < m.value) : n.value ≤ v := by
  have := (abs_sub_upper_le_iff hn).1 (h.nearest n)
  linarith

end IsNearest

/-- The number is read as `m`: it is below the overflow, and `m` is nearest to it. -/
structure IsRoundingOf (m : Magnitude) (v : ℚ) : Prop where
  isNearest : m.IsNearest v
  lt_overflow : v < 2 ^ (1024 : ℕ) - 2 ^ (970 : ℕ)

/-- **Reading depends on the number only.** -/
theorem isReadFrom_iff {d : Decimal} : m.IsReadFrom d ↔ m.IsRoundingOf d.value := by
  constructor
  · intro h
    refine ⟨isNearest_of_ofDecimal? h, not_le.1 fun hle => ?_⟩
    rw [IsReadFrom, (ofDecimal?_eq_none_iff d).2 hle] at h
    cases h
  · intro h
    cases hread : ofDecimal? d with
    | none => exact absurd ((ofDecimal?_eq_none_iff d).1 hread) (not_le.2 h.lt_overflow)
    | some n =>
      rw [h.isNearest.eq (isNearest_of_ofDecimal? hread)]
      exact hread

theorem isReadFrom_congr {d d' : Decimal} (h : d.value = d'.value) :
    m.IsReadFrom d ↔ m.IsReadFrom d' := by
  rw [isReadFrom_iff, isReadFrom_iff, h]

namespace IsRoundingOf

variable {a b c v : ℚ}

/-- **The numbers that are read as `m` are an interval.** -/
theorem of_between (ha : m.IsRoundingOf a) (hc : m.IsRoundingOf c) (hab : a ≤ b) (hbc : b ≤ c) :
    m.IsRoundingOf b :=
  ⟨ha.isNearest.of_between hc.isNearest hab hbc, lt_of_le_of_lt hbc hc.lt_overflow⟩

/-- It reaches no farther up than one spacing. -/
theorem le_add_spacing (h : m.IsRoundingOf v) :
    v ≤ (m.units + spacing m.units : Nat) / 2 ^ (1074 : ℕ) := by
  rcases Nat.lt_or_ge (m.units + spacing m.units) unitLimit with hlt | hge
  · have hle : v ≤ (m.next hlt).value := h.isNearest.le_value (m.value_lt_next hlt)
    exact hle
  · have hlimit : overflowUnits ≤ unitLimit := by decide +kernel
    refine h.lt_overflow.le.trans ?_
    rw [← cast_overflowUnits]
    exact div_le_div_of_nonneg_right (by exact_mod_cast hlimit.trans hge) (by positivity)

/-- Nor farther down. -/
theorem sub_spacing_le (h : m.IsRoundingOf v) (hm : 0 < m.units) :
    (m.units - spacing m.units : Nat) / 2 ^ (1074 : ℕ) ≤ v := by
  have hdvd : spacing (m.units - spacing m.units) ∣ m.units - spacing m.units :=
    Nat.dvd_trans (Nat.pow_dvd_pow 2 (binade_mono (Nat.sub_le _ _)))
      (Nat.dvd_sub m.spacing_dvd (Nat.dvd_refl _))
  let previous : Magnitude := ⟨_, Nat.lt_of_le_of_lt (Nat.sub_le _ _) m.units_lt, hdvd⟩
  have hprevious : previous.value < m.value :=
    value_lt_value (Nat.sub_lt hm (spacing_pos _))
  have hle : previous.value ≤ v := h.isNearest.value_le hprevious
  exact hle

end IsRoundingOf

theorem units_pos (hm : m.isZero = false) : 0 < m.units := by
  simpa [isZero, Nat.pos_iff_ne_zero] using hm

theorem spacing_le_units (hm : m.isZero = false) : spacing m.units ≤ m.units :=
  Nat.le_of_dvd (units_pos hm) m.spacing_dvd

/-- What is at most half a unit is read as zero, and as nothing else. -/
theorem IsRoundingOf.half_unit_lt {v : ℚ} (h : m.IsRoundingOf v) (hm : m.isZero = false)
    (hv : 0 ≤ v) : 1 / 2 ^ (1075 : ℕ) < v := by
  by_contra hle
  have hzero := h.isNearest.eq (isNearest_zero hv (not_lt.1 hle))
  rw [hzero] at hm
  cases hm

/-! ### The grids -/

/-- A step of the finest grid. -/
@[irreducible] def fineStep : ℚ := 10 ^ (-((1074 : ℕ) : ℤ))

theorem fineStep_pos : 0 < fineStep := by
  unfold fineStep
  exact zpow_pos (by norm_num) _

theorem ten_zpow_eq (e : ℤ) : (10 : ℚ) ^ e = 10 ^ (e + 1074) * fineStep := by
  rw [fineStep, ← zpow_add₀ (by norm_num)]
  congr 1
  omega

theorem value_gridPoint (j n : Nat) : (gridPoint j n).value = (n * 10 ^ j : Nat) * fineStep := by
  rw [Decimal.value, gridPoint, ten_zpow_eq, sub_add_cancel, zpow_natCast, Nat.cast_mul,
    Nat.cast_pow, Nat.cast_ofNat, mul_assoc]

theorem mul_zpow_neg_of_eq {a b k : Nat} (h : 10 ^ k = a * b) :
    (a : ℚ) * b * 10 ^ (-(k : ℤ)) = 1 := by
  have hcast : (a : ℚ) * b = 10 ^ k := by exact_mod_cast h.symm
  rw [hcast, ← zpow_natCast, ← zpow_add₀ (by norm_num), add_neg_cancel, zpow_zero]

theorem value_eq_finePlace (m : Magnitude) : m.value = m.finePlace * fineStep := by
  have hunit : (stepsPerUnit : ℚ) * unitsPerOne * fineStep = 1 := by
    unfold fineStep
    exact mul_zpow_neg_of_eq stepsPerUnit_mul_unitsPerOne
  have hpos : (unitsPerOne : ℚ) ≠ 0 := by exact_mod_cast unitsPerOne_pos.ne'
  have hcomm : (m.units : ℚ) * stepsPerUnit * fineStep * unitsPerOne
      = m.units * (stepsPerUnit * unitsPerOne * fineStep) := by ring
  rw [value, ← cast_unitsPerOne, finePlace, Nat.cast_mul, div_eq_iff hpos, hcomm, hunit, mul_one]

/-- A magnitude is read as itself. -/
theorem isRoundingOf_value (m : Magnitude) : m.IsRoundingOf m.value := by
  have hread := isReadFrom_iff.1 (isReadFrom_finePlace m)
  rwa [value_gridPoint, Nat.pow_zero, Nat.mul_one, ← value_eq_finePlace] at hread

theorem cast_mul_fineStep_le {a b : Nat} (h : a ≤ b) : (a : ℚ) * fineStep ≤ b * fineStep :=
  mul_le_mul_of_nonneg_right (by exact_mod_cast h) fineStep_pos.le

theorem gridPoint_value_le {j n : Nat} (h : n * 10 ^ j ≤ m.finePlace) :
    (gridPoint j n).value ≤ m.value := by
  rw [value_gridPoint, value_eq_finePlace]
  exact cast_mul_fineStep_le h

theorem value_le_gridPoint {j n : Nat} (h : m.finePlace ≤ n * 10 ^ j) :
    m.value ≤ (gridPoint j n).value := by
  rw [value_gridPoint, value_eq_finePlace]
  exact cast_mul_fineStep_le h

theorem gridPoint_value_mono {j n k : Nat} (h : n ≤ k) :
    (gridPoint j n).value ≤ (gridPoint j k).value := by
  rw [value_gridPoint, value_gridPoint]
  exact cast_mul_fineStep_le (Nat.mul_le_mul_right _ h)

/-- The distance of a magnitude from a point, in steps of the finest grid. -/
theorem abs_value_gridPoint_sub (m : Magnitude) (j n : Nat) :
    |(gridPoint j n).value - m.value| = |(m.finePlace : ℚ) - (n * 10 ^ j : Nat)| * fineStep := by
  rw [value_gridPoint, value_eq_finePlace, ← sub_mul, abs_mul, abs_of_pos fineStep_pos,
    abs_sub_comm]

theorem eq_gridPoint {d : Decimal} {j : Nat} (h : d.exponent = (j : Int) - 1074) :
    d = gridPoint j d.significand :=
  Decimal.ext rfl h

/-! ### The points beside a magnitude -/

section Neighbours

variable {j : Nat}

theorem floor_mul_le (m : Magnitude) (j : Nat) : m.finePlace / 10 ^ j * 10 ^ j ≤ m.finePlace :=
  Nat.div_mul_le_self _ _

theorem le_floor_succ_mul (m : Magnitude) (j : Nat) :
    m.finePlace ≤ (m.finePlace / 10 ^ j + 1) * 10 ^ j := by
  rw [Nat.mul_comm]
  exact (Nat.lt_mul_div_succ _ (Nat.pow_pos (by decide))).le

/-- The first of the two is no farther away. -/
theorem pairwise_neighbours (m : Magnitude) (j : Nat) :
    (m.neighbours j).Pairwise fun p q => |p.value - m.value| ≤ |q.value - m.value| := by
  have hpos : 0 < 10 ^ j := Nat.pow_pos (by decide)
  have hsum := Nat.div_add_mod' m.finePlace (10 ^ j)
  have hupper := Nat.add_mul (m.finePlace / 10 ^ j) 1 (10 ^ j)
  have hlt : ((m.finePlace / 10 ^ j * 10 ^ j : Nat) : ℚ)
      < ((m.finePlace / 10 ^ j + 1) * 10 ^ j : Nat) := by
    exact_mod_cast (by omega)
  unfold neighbours
  dsimp only
  split
  all_goals
    rw [List.pairwise_pair, abs_value_gridPoint_sub, abs_value_gridPoint_sub]
    refine mul_le_mul_of_nonneg_right ?_ fineStep_pos.le
  · rw [abs_sub_lower_le_iff hlt]
    exact_mod_cast (by omega)
  · rw [abs_sub_upper_le_iff hlt]
    exact_mod_cast (by omega)

theorem mem_neighbours : gridPoint j (m.finePlace / 10 ^ j) ∈ m.neighbours j ∧
    gridPoint j (m.finePlace / 10 ^ j + 1) ∈ m.neighbours j := by
  unfold neighbours
  dsimp only
  split <;> simp

/-- **If any point of a grid is read as `m`, one beside `m` is**, and it is no farther away. -/
theorem exists_mem_neighbours {n : Nat} (h : m.IsReadFrom (gridPoint j n)) :
    ∃ p ∈ m.neighbours j, m.IsReadFrom p ∧
      |p.value - m.value| ≤ |(gridPoint j n).value - m.value| := by
  have hround := isReadFrom_iff.1 h
  obtain ⟨hlower, hupper⟩ := mem_neighbours (m := m) (j := j)
  rcases Nat.lt_or_ge (m.finePlace / 10 ^ j) n with hlt | hle
  · have hm := value_le_gridPoint (le_floor_succ_mul m j)
    have hn : (gridPoint j _).value ≤ (gridPoint j n).value := gridPoint_value_mono hlt
    refine ⟨_, hupper, isReadFrom_iff.2 (m.isRoundingOf_value.of_between hround hm hn), ?_⟩
    rw [abs_of_nonneg (by linarith), abs_of_nonneg (by linarith)]
    linarith
  · have hm := gridPoint_value_le (floor_mul_le m j)
    have hn : (gridPoint j n).value ≤ (gridPoint j _).value := gridPoint_value_mono hle
    refine ⟨_, hlower, isReadFrom_iff.2 (hround.of_between m.isRoundingOf_value hn hm), ?_⟩
    rw [abs_of_nonpos (by linarith), abs_of_nonpos (by linarith)]
    linarith

/-- What is found on a grid is nearest among the points of it that are read as `m`. -/
theorem nearest_of_find? {p : Decimal}
    (hfind : (m.neighbours j).find? (m.IsReadFrom ·) = some p) {n : Nat}
    (h : m.IsReadFrom (gridPoint j n)) :
    |p.value - m.value| ≤ |(gridPoint j n).value - m.value| := by
  obtain ⟨q, hq, hread, hle⟩ := exists_mem_neighbours h
  refine le_trans ?_ hle
  obtain ⟨_, before, behind, hlist, hnone⟩ := List.find?_eq_some_iff_append.1 hfind
  have hsorted := pairwise_neighbours m j
  rw [hlist] at hq hsorted
  rcases List.mem_append.1 hq with hbefore | hbehind
  · have hnot := hnone q hbefore
    rw [decide_eq_true hread] at hnot
    cases hnot
  · rcases List.mem_cons.1 hbehind with rfl | hmem
    · exact le_refl _
    · exact (List.pairwise_cons.1 (List.pairwise_append.1 hsorted).2.1).1 q hmem

theorem not_isReadFrom_of_find? (hfind : (m.neighbours j).find? (m.IsReadFrom ·) = none) (n : Nat) :
    ¬ m.IsReadFrom (gridPoint j n) := by
  intro h
  obtain ⟨q, hq, hread, _⟩ := exists_mem_neighbours h
  exact absurd (decide_eq_true hread) (List.find?_eq_none.1 hfind q hq)

end Neighbours

/-! ### The search -/

/-- The decimal is read as `m`, no decimal on a coarser grid is, and none on the same grid that is nearer
to `m`. -/
structure IsCoarsest (m : Magnitude) (d : Decimal) : Prop where
  isReadFrom : m.IsReadFrom d
  exponent_le : ∀ d', m.IsReadFrom d' → d'.exponent ≤ d.exponent
  nearest : ∀ d', m.IsReadFrom d' → d'.exponent = d.exponent →
    |d.value - m.value| ≤ |d'.value - m.value|

/-- From a grid on that nothing coarser is read as `m`, the search finds the coarsest decimal. -/
theorem isCoarsest_shortestFrom {j : Nat}
    (hj : ∀ d', m.IsReadFrom d' → d'.exponent ≤ (j : Int) - 1074) :
    m.IsCoarsest (m.shortestFrom j) := by
  induction j with
  | zero =>
    have hvalue : (gridPoint 0 m.finePlace).value = m.value := by
      rw [value_gridPoint, Nat.pow_zero, Nat.mul_one, ← value_eq_finePlace]
    refine ⟨isReadFrom_finePlace m, hj, fun d' _ _ => ?_⟩
    show |(gridPoint 0 m.finePlace).value - m.value| ≤ _
    rw [hvalue, sub_self, abs_zero]
    exact abs_nonneg _
  | succ j ih =>
    have hread := isReadFrom_shortestFrom m (j + 1)
    rw [shortestFrom] at hread ⊢
    cases hfind : (m.neighbours (j + 1)).find? (m.IsReadFrom ·) with
    | none =>
      -- The next grid is the coarsest now.
      refine ih fun d' h => ?_
      have hle := hj d' h
      by_contra hlt
      have hgrid : d'.exponent = ((j + 1 : Nat) : Int) - 1074 := by omega
      rw [eq_gridPoint hgrid] at h
      exact not_isReadFrom_of_find? hfind _ h
    | some p =>
      rw [hfind] at hread
      obtain ⟨k, rfl⟩ := exists_of_mem_neighbours (List.mem_of_find?_eq_some hfind)
      refine ⟨hread, hj, fun d' h heq => ?_⟩
      rw [eq_gridPoint heq] at h ⊢
      exact nearest_of_find? hfind h

/-! ### The first grid -/

theorem two_pow_lt_ten_pow (n : Nat) : 2 ^ n < 10 ^ (n * 28 / 93 + 1) := by
  have hbase : 2 ^ (93 : Nat) ≤ 10 ^ (28 : Nat) := by decide
  have hne : (93 : Nat) ≠ 0 := by decide
  refine (Nat.pow_lt_pow_iff_left hne).1 ?_
  calc (2 ^ n) ^ (93 : Nat) = (2 ^ (93 : Nat)) ^ n := by
        rw [← Nat.pow_mul, ← Nat.pow_mul, Nat.mul_comm]
    _ ≤ (10 ^ (28 : Nat)) ^ n := Nat.pow_le_pow_left hbase n
    _ = 10 ^ (28 * n) := (Nat.pow_mul ..).symm
    _ < 10 ^ ((n * 28 / 93 + 1) * 93) := Nat.pow_lt_pow_right (by decide) (by omega)
    _ = (10 ^ (n * 28 / 93 + 1)) ^ (93 : Nat) := Nat.pow_mul ..

theorem finePlace_lt (m : Magnitude) : m.finePlace < 10 ^ m.coarsestGrid :=
  Nat.lt_trans Nat.lt_log2_self (two_pow_lt_ten_pow _)

theorem IsRoundingOf.le_two_mul {v : ℚ} (h : m.IsRoundingOf v) (hm : m.isZero = false) :
    v ≤ 2 * m.value := by
  have hle : (m.units + spacing m.units : Nat) ≤ 2 * m.units := by
    have := spacing_le_units hm
    omega
  refine h.le_add_spacing.trans ?_
  rw [value, ← mul_div_assoc]
  exact div_le_div_of_nonneg_right (by exact_mod_cast hle) (by positivity)

theorem value_pos (hm : m.isZero = false) : 0 < m.value := by
  rw [← value_zero]
  exact value_lt_value (units_pos hm)

/-- What is read as another magnitude than zero is not zero. -/
theorem significand_pos {d : Decimal} (hm : m.isZero = false) (h : m.IsReadFrom d) :
    0 < d.significand := by
  apply Nat.pos_of_ne_zero
  intro hzero
  have hvalue : d.value = 0 := by rw [Decimal.value, hzero, Nat.cast_zero, zero_mul]
  have hround := isReadFrom_iff.1 h
  rw [hvalue] at hround
  have hnot : ¬ (1 : ℚ) / 2 ^ (1075 : ℕ) < 0 := not_lt.2 (by positivity)
  exact hnot (hround.half_unit_lt hm (le_refl 0))

/-- **On a grid coarser than the first one nothing is read as `m`.** -/
theorem exponent_le_coarsestGrid (hm : m.isZero = false) {d : Decimal} (h : m.IsReadFrom d) :
    d.exponent ≤ (m.coarsestGrid : Int) - 1074 := by
  by_contra hlt
  have hplace : (m.finePlace : ℚ) < 10 ^ m.coarsestGrid := by exact_mod_cast m.finePlace_lt
  have hpow : (10 : ℚ) ^ (m.coarsestGrid + 1) ≤ 10 ^ (d.exponent + 1074) := by
    rw [← zpow_natCast]
    exact zpow_le_zpow_right₀ (by norm_num) (by push_cast; omega)
  have hsize : (10 : ℚ) ^ d.exponent ≤ d.value := by
    have hone : 10 ^ (0 : Nat) ≤ d.significand := significand_pos hm h
    have hle := Decimal.zpow_le_value hone
    rwa [Nat.cast_zero, zero_add] at hle
  have hfar : (10 : ℚ) ^ (m.coarsestGrid + 1) * fineStep ≤ 2 * (m.finePlace * fineStep) :=
    calc (10 : ℚ) ^ (m.coarsestGrid + 1) * fineStep ≤ 10 ^ (d.exponent + 1074) * fineStep :=
          mul_le_mul_of_nonneg_right hpow fineStep_pos.le
      _ = 10 ^ d.exponent := (ten_zpow_eq _).symm
      _ ≤ d.value := hsize
      _ ≤ 2 * m.value := (isReadFrom_iff.1 h).le_two_mul hm
      _ = 2 * (m.finePlace * fineStep) := by rw [value_eq_finePlace]
  rw [← mul_assoc, mul_le_mul_iff_of_pos_right fineStep_pos, pow_succ] at hfar
  linarith

/-- **The search stops on the coarsest grid that has an answer, at the nearest one.** -/
theorem isCoarsest_shortest (hm : m.isZero = false) : m.IsCoarsest m.shortest := by
  rw [shortest, if_neg (Bool.eq_false_iff.1 hm)]
  exact isCoarsest_shortestFrom fun _ => exponent_le_coarsestGrid hm

/-! ### Numbers of one digit -/

theorem mul_zpow_le_div_iff {a b n k : Nat} :
    (n : ℚ) * 10 ^ (-(a : ℤ)) ≤ k / 2 ^ b ↔ n * 2 ^ b ≤ k * 10 ^ a := by
  rw [zpow_neg, zpow_natCast, ← div_eq_mul_inv, div_le_div_iff₀ (by positivity) (by positivity)]
  exact_mod_cast Iff.rfl

theorem zpow_le_div_iff {a b k : Nat} :
    (10 : ℚ) ^ (-(a : ℤ)) ≤ k / 2 ^ b ↔ 2 ^ b ≤ k * 10 ^ a := by
  have hone := mul_zpow_le_div_iff (a := a) (b := b) (n := 1) (k := k)
  rwa [Nat.cast_one, one_mul, Nat.one_mul] at hone

/-- Only below `2 ^ 53` units the spacing is a large part of a number, and there it is one unit. -/
theorem spacing_eq_one_of_le {n : Nat} (h : n ≤ 19 * spacing n) : spacing n = 1 := by
  have hbinade : binade n = 0 := by
    by_contra hne
    have hfull := two_pow_binade_le (Nat.pos_of_ne_zero hne)
    have hpos := spacing_pos n
    rw [Nat.pow_add] at hfull
    unfold spacing at h hpos
    omega
  rw [spacing, hbinade, Nat.pow_zero]

/-- Where nine and ten steps are both read as `m`, a step is at most two units. -/
theorem step_le_of_nine_ten (hm : m.isZero = false) {p : ℚ}
    (hnine : m.IsRoundingOf (9 * p)) (hten : m.IsRoundingOf (10 * p)) :
    p ≤ (2 : Nat) / 2 ^ (1074 : ℕ) := by
  have hpow : (0 : ℚ) < 2 ^ (1074 : ℕ) := by positivity
  have hupper := hten.le_add_spacing
  have hlower := hnine.sub_spacing_le (units_pos hm)
  rw [le_div_iff₀ hpow, Nat.cast_add] at hupper
  rw [div_le_iff₀ hpow, Nat.cast_sub (spacing_le_units hm)] at hlower
  rw [le_div_iff₀ hpow, Nat.cast_ofNat]
  generalize (2 : ℚ) ^ (1074 : ℕ) = scale at hupper hlower ⊢
  have hsmall : (m.units : ℚ) ≤ 19 * spacing m.units := by linarith
  have hone : spacing m.units = 1 := spacing_eq_one_of_le (by exact_mod_cast hsmall)
  rw [hone, Nat.cast_one] at hupper hlower
  linarith

/-- There is one grid only where both are. -/
theorem exponent_eq_of_nine_ten (hm : m.isZero = false) {e : ℤ}
    (hnine : m.IsRoundingOf (9 * 10 ^ e)) (hten : m.IsRoundingOf (10 * 10 ^ e)) : e = -324 := by
  apply le_antisymm
  · by_contra hlt
    have hpow : (10 : ℚ) ^ (-((323 : ℕ) : ℤ)) ≤ 10 ^ e :=
      zpow_le_zpow_right₀ (by norm_num) (by push_cast; omega)
    have hlarge := zpow_le_div_iff.1 (hpow.trans (step_le_of_nine_ten hm hnine hten))
    exact absurd hlarge (by decide +kernel)
  · by_contra hlt
    have hpow : (10 : ℚ) * 10 ^ e ≤ 10 ^ (-((324 : ℕ) : ℤ)) := by
      rw [← zpow_one_add₀ (by norm_num)]
      exact zpow_le_zpow_right₀ (by norm_num) (by push_cast; omega)
    have hsmall : (10 : ℚ) ^ (-((324 : ℕ) : ℤ)) ≤ (1 : Nat) / 2 ^ (1075 : ℕ) :=
      zpow_le_div_iff.2 (by decide +kernel)
    have hnonneg : (0 : ℚ) ≤ 10 * 10 ^ e := mul_nonneg (by norm_num) (zpow_nonneg (by norm_num) _)
    rw [Nat.cast_one] at hsmall
    exact absurd (hten.half_unit_lt hm hnonneg) (not_lt.2 (hpow.trans hsmall))

/-- Two units. -/
def twoUnits : Magnitude := ⟨2, by decide +kernel, by decide +kernel⟩

theorem isReadFrom_twoUnits : twoUnits.IsReadFrom ⟨1, -323⟩ := by decide +kernel

/-- Ten steps of that grid are nearer to two units than nine are. -/
theorem nearest_twoUnits {v : ℚ} (h : v ≤ 9 * 10 ^ (-324 : ℤ)) :
    |(⟨1, -323⟩ : Decimal).value - twoUnits.value| ≤ |v - twoUnits.value| := by
  have hten : (⟨1, -323⟩ : Decimal).value = 10 * 10 ^ (-324 : ℤ) := by
    rw [← zpow_one_add₀ (by norm_num), Decimal.value, Nat.cast_one, one_mul]
    rfl
  have hmiddle : 19 * 10 ^ (-324 : ℤ) ≤ 2 * twoUnits.value := by
    have hunits : (2 : ℚ) * twoUnits.value = (4 : Nat) / 2 ^ (1074 : ℕ) := by
      rw [value, ← mul_div_assoc, twoUnits]
      norm_num only
    rw [hunits]
    exact (mul_zpow_le_div_iff (n := 19)).2 (by decide +kernel)
  have hpos : (0 : ℚ) < 10 ^ (-324 : ℤ) := zpow_pos (by norm_num) _
  have hlt : v < (⟨1, -323⟩ : Decimal).value := by linarith
  rw [abs_sub_comm, abs_sub_comm v, abs_sub_upper_le_iff hlt]
  linarith

/-- **Two units are the only magnitude** that one step of a grid is read as and also a number of one
digit on a finer grid. -/
theorem eq_twoUnits_of_digit (hm : m.isZero = false) {e : Int} (hone : m.IsReadFrom ⟨1, e⟩)
    {d : Decimal} (h : m.IsReadFrom d) (hdigit : d.significand ≤ 9) (hfiner : d.exponent < e) :
    m = twoUnits ∧ e = -323 ∧ d.value ≤ 9 * 10 ^ (-324 : ℤ) := by
  have hnine : d.value ≤ 9 * 10 ^ (e - 1) :=
    mul_le_mul (by exact_mod_cast hdigit) (zpow_le_zpow_right₀ (by norm_num) (by omega))
      (zpow_nonneg (by norm_num) _) (by norm_num)
  have hten : (10 : ℚ) * 10 ^ (e - 1) = (⟨1, e⟩ : Decimal).value := by
    rw [← zpow_one_add₀ (by norm_num), add_sub_cancel, Decimal.value, Nat.cast_one, one_mul]
  have hpos : (0 : ℚ) < 10 ^ (e - 1) := zpow_pos (by norm_num) _
  have hroundten : m.IsRoundingOf (10 * 10 ^ (e - 1)) := hten ▸ isReadFrom_iff.1 hone
  have hroundnine : m.IsRoundingOf (9 * 10 ^ (e - 1)) :=
    (isReadFrom_iff.1 h).of_between hroundten hnine (by linarith)
  have hexponent := exponent_eq_of_nine_ten hm hroundnine hroundten
  obtain rfl : e = -323 := by omega
  exact ⟨Option.some.inj (hone.symm.trans isReadFrom_twoUnits), rfl, hnine⟩

/-! ### The fewest digits -/

namespace IsCoarsest

variable {d d' : Decimal} {c : Nat}

/-- Only a first digit stands between a coarsest decimal and lower ones. -/
theorem isReadFrom_of_lt (h : m.IsCoarsest d) (hd : 10 ^ c ≤ d.significand) {v : ℚ}
    (hv : m.IsRoundingOf v) (hlt : v < 10 ^ (c + d.exponent)) :
    c = 0 ∧ m.IsReadFrom ⟨1, d.exponent⟩ := by
  have hread : m.IsReadFrom ⟨1, c + d.exponent⟩ := by
    rw [isReadFrom_iff, Decimal.value, Nat.cast_one, one_mul]
    exact hv.of_between (isReadFrom_iff.1 h.isReadFrom) hlt.le (Decimal.zpow_le_value hd)
  have hexponent : c + d.exponent ≤ d.exponent := h.exponent_le _ hread
  obtain rfl : c = 0 := by omega
  rw [Nat.cast_zero, zero_add] at hread
  exact ⟨rfl, hread⟩

/-- **No decimal that is read as `m` has fewer digits than a coarsest one.** -/
theorem digits_le (h : m.IsCoarsest d) (hm : m.isZero = false) (hd : 10 ^ c ≤ d.significand)
    (h' : m.IsReadFrom d') {c' : Nat} (hd' : d'.significand < 10 ^ c') : c < c' := by
  by_contra hle
  have hlt : d'.value < (10 : ℚ) ^ (c + d.exponent) := by
    refine (Decimal.value_lt_zpow hd').trans_le (zpow_le_zpow_right₀ (by norm_num) ?_)
    have := h.exponent_le d' h'
    omega
  obtain ⟨rfl, _⟩ := h.isReadFrom_of_lt hd (isReadFrom_iff.1 h') hlt
  obtain rfl : c' = 0 := by omega
  have := significand_pos hm h'
  rw [Nat.pow_zero] at hd'
  omega

/-- **With as many digits none is nearer.** -/
theorem nearest_of_digits (h : m.IsCoarsest d) (hm : m.isZero = false)
    (hd : 10 ^ c ≤ d.significand) (h' : m.IsReadFrom d') (hd' : d'.significand < 10 ^ (c + 1)) :
    |d.value - m.value| ≤ |d'.value - m.value| := by
  rcases (h.exponent_le d' h').lt_or_eq with hfiner | heq
  · have hlt : d'.value < (10 : ℚ) ^ (c + d.exponent) := by
      refine (Decimal.value_lt_zpow hd').trans_le (zpow_le_zpow_right₀ (by norm_num) ?_)
      push_cast
      omega
    obtain ⟨rfl, hone⟩ := h.isReadFrom_of_lt hd (isReadFrom_iff.1 h') hlt
    obtain ⟨rfl, hgrid, hnine⟩ :=
      eq_twoUnits_of_digit hm hone h' (Nat.le_of_lt_succ hd') hfiner
    rw [hgrid] at hone
    exact (h.nearest ⟨1, -323⟩ hone hgrid.symm).trans (nearest_twoUnits hnine)
  · exact h.nearest d' h' heq

end IsCoarsest

end Magnitude

end PowerRule
