import PowerRule.Integer
import PowerRule.Rounding

/-!
Magnitudes: the non-negative finite numbers of the binary64 format.

Every such number is a whole number of *units* of `2 ^ -1074`, so a magnitude is that whole number
with two facts about it: it is below `2 ^ 1024`, and it is a multiple of the spacing of the format
where it stands.  The spacing is one unit below `2 ^ 53` units and doubles at each power of two from
there on; numbers of 53 significant bits and the gradual underflow below them are both in this rule.

Any quotient `num / den` of units rounds to a number of units on the grid of the format, and to a
magnitude if that is below the limit:

    round? num den = some m   ↔   roundUnits num den = m.units

Rounding is pinned down by four lemmas: what it gives is on the grid (`spacing_dvd_roundUnits`), what
is on the grid is its own rounding (`roundUnits_of_dvd`), only the quotient counts
(`roundUnits_mul_mul_right`), and the order is kept (`roundUnits_mono`).
-/

namespace PowerRule

/-! ### The spacing of the format -/

/-- How often the spacing has doubled where `units` stands. -/
def binade (units : Nat) : Nat := units.log2 - 52

/-- The distance from one number of the format to the next, where `units` stands. -/
def spacing (units : Nat) : Nat := 2 ^ binade units

theorem spacing_pos (n : Nat) : 0 < spacing n := Nat.two_pow_pos _

/-- A number has at most 53 bits above its spacing. -/
theorem lt_two_pow_binade (n : Nat) : n < 2 ^ (53 + binade n) := by
  refine Nat.lt_of_lt_of_le Nat.lt_log2_self (Nat.pow_le_pow_right (by decide) ?_)
  unfold binade
  omega

/-- Where the spacing has doubled, a number has all 53 bits. -/
theorem two_pow_binade_le {n : Nat} (h : 0 < binade n) : 2 ^ (52 + binade n) ≤ n := by
  have hn : n ≠ 0 := by
    rintro rfl
    simp [binade] at h
  refine Nat.le_trans (Nat.pow_le_pow_right (by decide) ?_) (Nat.log2_self_le hn)
  unfold binade at h ⊢
  omega

/-- The binade is fixed by the bounds on the number. -/
theorem binade_le_of_lt {n k : Nat} (h : n < 2 ^ (53 + k)) : binade n ≤ k := by
  rcases Nat.eq_zero_or_pos n with rfl | hn
  · simp [binade]
  · have := (Nat.log2_lt (Nat.ne_of_gt hn)).2 h
    unfold binade
    omega

theorem binade_two_pow (k : Nat) : binade (2 ^ k) = k - 52 := by
  unfold binade
  rw [Nat.log2_two_pow]

theorem binade_mono {a b : Nat} (h : a ≤ b) : binade a ≤ binade b :=
  binade_le_of_lt (Nat.lt_of_le_of_lt h (lt_two_pow_binade b))

/-- What stands above the spacing has 53 bits. -/
theorem div_spacing_lt (n : Nat) : n / spacing n < 2 ^ (53 : Nat) := by
  refine (Nat.div_lt_iff_lt_mul (spacing_pos n)).2 ?_
  unfold spacing
  rw [← Nat.pow_add]
  exact lt_two_pow_binade n

/-- Where the spacing has doubled, all 53 of them count. -/
theorem le_div_spacing {n : Nat} (h : 0 < binade n) : 2 ^ (52 : Nat) ≤ n / spacing n := by
  refine (Nat.le_div_iff_mul_le (spacing_pos n)).2 ?_
  unfold spacing
  rw [← Nat.pow_add]
  exact two_pow_binade_le h

/-! ### Rounding to the format -/

/-- The number of units that `num / den` rounds to: the nearest multiple of the spacing, the even
multiple of two equally near ones. -/
def roundUnits (num den : Nat) : Nat :=
  let step := spacing (num / den)
  roundDiv num (den * step) * step

/-- Rounding never gives more than 53 bits above the spacing it used, save for the next power of
two itself. -/
theorem roundDiv_spacing_le (num den : Nat) :
    roundDiv num (den * spacing (num / den)) ≤ 2 ^ (53 : Nat) := by
  refine Nat.le_trans (roundDiv_le_succ _ _) ?_
  rw [← Nat.div_div_eq_div_mul, Nat.succ_le_iff]
  exact div_spacing_lt _

/-- A number of 53 bits times a power of two stands on the format's grid. -/
theorem spacing_dvd_mul_two_pow {significand : Nat} (h : significand < 2 ^ (53 : Nat)) (k : Nat) :
    spacing (significand * 2 ^ k) ∣ significand * 2 ^ k := by
  have hb : binade (significand * 2 ^ k) ≤ k := by
    apply binade_le_of_lt
    rw [Nat.pow_add]
    exact (Nat.mul_lt_mul_right (Nat.two_pow_pos k)).2 h
  exact Nat.dvd_trans (Nat.pow_dvd_pow 2 hb) (Nat.dvd_mul_left _ _)

/-- The next number stands on the grid as well: it is a power of two. -/
theorem spacing_dvd_mul_two_pow_of_le {significand : Nat} (h : significand ≤ 2 ^ (53 : Nat))
    (k : Nat) : spacing (significand * 2 ^ k) ∣ significand * 2 ^ k := by
  rcases Nat.lt_or_eq_of_le h with hlt | rfl
  · exact spacing_dvd_mul_two_pow hlt k
  · unfold spacing
    rw [← Nat.pow_add, binade_two_pow]
    exact Nat.pow_dvd_pow 2 (by omega)

/-- What rounding gives stands on the format's grid. -/
theorem spacing_dvd_roundUnits (num den : Nat) :
    spacing (roundUnits num den) ∣ roundUnits num den :=
  spacing_dvd_mul_two_pow_of_le (roundDiv_spacing_le num den) (binade (num / den))

/-- A number on the format's grid is its own rounding. -/
theorem roundUnits_of_dvd {n den : Nat} (hden : 0 < den) (h : spacing n ∣ n) :
    roundUnits (n * den) den = n := by
  obtain ⟨q, hq⟩ := h
  have hstep := spacing_pos n
  unfold roundUnits
  dsimp only
  rw [Nat.mul_div_cancel n hden]
  have : n * den = q * (den * spacing n) := by
    rw [Nat.mul_comm den, ← Nat.mul_assoc, Nat.mul_comm q, ← hq]
  rw [this, roundDiv_mul_self q (Nat.mul_pos hden hstep), Nat.mul_comm, ← hq]

/-- Only the quotient counts. -/
theorem roundUnits_mul_mul_right (num den : Nat) {c : Nat} (h : 0 < c) :
    roundUnits (num * c) (den * c) = roundUnits num den := by
  unfold roundUnits
  dsimp only
  rw [Nat.mul_div_mul_right num den h, Nat.mul_right_comm, roundDiv_mul_mul_right _ _ h]

/-- A quotient in a doubled binade rounds to no less than the first number of that binade. -/
theorem two_pow_binade_le_roundUnits {num den : Nat} (h : 0 < binade (num / den)) :
    2 ^ (52 + binade (num / den)) ≤ roundUnits num den := by
  rw [Nat.pow_add]
  refine Nat.mul_le_mul_right _ (Nat.le_trans ?_ (div_le_roundDiv _ _))
  rw [← Nat.div_div_eq_div_mul]
  exact le_div_spacing h

/-- A greater quotient rounds to no less. -/
theorem roundUnits_mono {a b : Nat} (den : Nat) (h : a ≤ b) :
    roundUnits a den ≤ roundUnits b den := by
  have hbinade := binade_mono (Nat.div_le_div_right (c := den) h)
  rcases Nat.lt_or_eq_of_le hbinade with hlt | heq
  · -- The next binade starts where this one ends.
    calc roundUnits a den ≤ 2 ^ (53 : Nat) * spacing (a / den) :=
          Nat.mul_le_mul_right _ (roundDiv_spacing_le a den)
      _ = 2 ^ (53 + binade (a / den)) := (Nat.pow_add ..).symm
      _ ≤ 2 ^ (52 + binade (b / den)) := Nat.pow_le_pow_right (by decide) (by omega)
      _ ≤ roundUnits b den := two_pow_binade_le_roundUnits (Nat.zero_lt_of_lt hlt)
  · -- Both are rounded to the same spacing.
    have hspacing : spacing (a / den) = spacing (b / den) := congrArg (2 ^ ·) heq
    show roundDiv a (den * spacing (a / den)) * spacing (a / den) ≤ _
    rw [hspacing]
    exact Nat.mul_le_mul_right _ (roundDiv_mono _ h)

/-! ### The type -/

/-- The least power of two that is too large for the format, `2 ^ 1024`, in units. -/
@[irreducible] def unitLimit : Nat := 2 ^ (2098 : Nat)

/-- The number one in units. -/
@[irreducible] def unitsPerOne : Nat := 2 ^ (1074 : Nat)

theorem unitLimit_eq : unitLimit = 2 ^ (53 + 2045 : Nat) := by decide +kernel

theorem unitsPerOne_pos : 0 < unitsPerOne := by decide +kernel

theorem unitsPerOne_lt_unitLimit : unitsPerOne < unitLimit := by decide +kernel

theorem spacing_dvd_unitsPerOne : spacing unitsPerOne ∣ unitsPerOne := by decide +kernel

/-- A non-negative finite number of the format, as a whole number of units of `2 ^ -1074`. -/
@[ext] structure Magnitude where
  /-- The number of units. -/
  units : Nat
  /-- It is below the limit of the format. -/
  units_lt : units < unitLimit
  /-- It stands on the grid of the format. -/
  spacing_dvd : spacing units ∣ units
  deriving DecidableEq

namespace Magnitude

/-- The number zero. -/
def zero : Magnitude where
  units := 0
  units_lt := Nat.lt_trans unitsPerOne_pos unitsPerOne_lt_unitLimit
  spacing_dvd := Nat.dvd_zero _

/-- The number one. -/
def one : Magnitude where
  units := unitsPerOne
  units_lt := unitsPerOne_lt_unitLimit
  spacing_dvd := spacing_dvd_unitsPerOne

/-- Whether the number is zero. -/
def isZero (m : Magnitude) : Bool := m.units == 0

@[simp] theorem isZero_iff {m : Magnitude} : m.isZero = true ↔ m = zero := by
  unfold isZero
  rw [beq_iff_eq]
  exact ⟨fun h => Magnitude.ext h, fun h => h ▸ rfl⟩

/-- The number nearest to `num / den` units, of two equally near ones the even one; none if that is
beyond the format. -/
def round? (num den : Nat) : Option Magnitude :=
  if h : roundUnits num den < unitLimit then
    some ⟨roundUnits num den, h, spacing_dvd_roundUnits num den⟩
  else none

/-- Rounding gives a number exactly where the rounded units are that number's. -/
theorem round?_eq_some_iff {num den : Nat} {m : Magnitude} :
    round? num den = some m ↔ roundUnits num den = m.units := by
  unfold round?
  split
  · rw [Option.some.injEq, Magnitude.ext_iff]
  · next h => exact ⟨nofun, fun e => absurd (e ▸ m.units_lt) h⟩

theorem round?_eq_none_iff {num den : Nat} :
    round? num den = none ↔ unitLimit ≤ roundUnits num den := by
  unfold round?
  split
  · next h => exact ⟨nofun, fun e => absurd h (Nat.not_lt.2 e)⟩
  · next h => exact ⟨fun _ => Nat.not_lt.1 h, fun _ => rfl⟩

/-- A magnitude is its own rounding. -/
theorem round?_units_mul (m : Magnitude) {den : Nat} (h : 0 < den) :
    round? (m.units * den) den = some m :=
  round?_eq_some_iff.2 (roundUnits_of_dvd h m.spacing_dvd)

end Magnitude

end PowerRule
