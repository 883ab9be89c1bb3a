import PowerRule.Coefficient

/-!
The 64 bits of a coefficient: one for the sign, eleven for the binade, 52 for the rest.

The eleven and the 52 together number the magnitudes from zero upwards, so that the word of a
magnitude is `binade * 2 ^ 52 + units / spacing`, and the word of infinity is the one after the last.
Every word with a greater number is the value that is not a number; it is written as the one in the
middle of them.
-/

namespace PowerRule

namespace Magnitude

/-! ### The number of a magnitude -/

/-- How many magnitudes are below this one. -/
def index (m : Magnitude) : Nat := binade m.units * 2 ^ (52 : Nat) + m.units / spacing m.units

/-- The units of the magnitude with a number: the first `2 ^ 53` are whole numbers of units, and
each further `2 ^ 52` are twice as far apart. -/
def unitsAt (index : Nat) : Nat :=
  let doublings := index / 2 ^ (52 : Nat) - 1
  (index - doublings * 2 ^ (52 : Nat)) * 2 ^ doublings

/-- The magnitude with a number, if there are so many. -/
def atIndex? (index : Nat) : Option Magnitude := round? (unitsAt index) 1

/-- The number of infinity: eleven set bits before the 52. -/
def indexLimit : Nat := 2047 * 2 ^ (52 : Nat)

/-- A magnitude is found at its number. -/
theorem unitsAt_index (m : Magnitude) : unitsAt m.index = m.units := by
  have hlt := div_spacing_lt m.units
  have hle := le_div_spacing (n := m.units)
  have hmul := Nat.div_mul_cancel m.spacing_dvd
  unfold unitsAt index
  dsimp only
  have hdoublings : (binade m.units * 2 ^ (52 : Nat) + m.units / spacing m.units) / 2 ^ (52 : Nat) - 1
      = binade m.units := by omega
  rw [hdoublings, Nat.add_sub_cancel_left]
  exact hmul

theorem atIndex?_index (m : Magnitude) : atIndex? m.index = some m := by
  unfold atIndex?
  rw [unitsAt_index, ← Nat.mul_one m.units]
  exact round?_units_mul m Nat.one_pos

/-- All magnitudes are numbered below infinity. -/
theorem index_lt (m : Magnitude) : m.index < indexLimit := by
  have hbinade : binade m.units ≤ 2045 := by
    refine binade_le_of_lt ?_
    exact unitLimit_eq ▸ m.units_lt
  have hlt := div_spacing_lt m.units
  unfold index indexLimit
  omega

end Magnitude

namespace Coefficient

/-! ### Words -/

/-- The bit that says minus. -/
def signBit : Nat := 2 ^ (63 : Nat)

/-- The word of a coefficient. -/
def toBits : Coefficient → UInt64
  | finite .plus m => .ofNat m.index
  | finite .minus m => .ofNat (signBit + m.index)
  | infinite .plus => .ofNat Magnitude.indexLimit
  | infinite .minus => .ofNat (signBit + Magnitude.indexLimit)
  | nan => .ofNat (Magnitude.indexLimit + 2 ^ (51 : Nat))

/-- The coefficient with this sign and the number `index`. -/
def ofIndex (sign : Sign) (index : Nat) : Coefficient :=
  (Magnitude.atIndex? index).elim (if index = Magnitude.indexLimit then infinite sign else nan)
    (finite sign)

/-- The coefficient of a word. -/
def ofBits (word : UInt64) : Coefficient :=
  ofIndex (if word.toNat < signBit then .plus else .minus) (word.toNat % signBit)

/-! ### Reading a word back -/

theorem toNat_toBits_finite (s : Sign) (m : Magnitude) :
    (toBits (finite s m)).toNat = (if s = .plus then 0 else signBit) + m.index := by
  have hlt := m.index_lt
  unfold Magnitude.indexLimit at hlt
  have hplus : m.index < 2 ^ (64 : Nat) := by omega
  have hminus : signBit + m.index < 2 ^ (64 : Nat) := by unfold signBit; omega
  cases s
  · rw [if_pos rfl, Nat.zero_add]
    exact UInt64.toNat_ofNat_of_lt' hplus
  · rw [if_neg nofun]
    exact UInt64.toNat_ofNat_of_lt' hminus

theorem ofIndex_index (s : Sign) (m : Magnitude) : ofIndex s m.index = finite s m := by
  unfold ofIndex
  rw [Magnitude.atIndex?_index, Option.elim_some]

theorem indexLimit_lt_signBit : Magnitude.indexLimit < signBit := by decide

/-- The sign bit and the number of a magnitude can be told apart. -/
theorem ofBits_eq_finite {word : UInt64} {s : Sign} {m : Magnitude}
    (h : word.toNat = (if s = .plus then 0 else signBit) + m.index) : ofBits word = finite s m := by
  have hlt := Nat.lt_trans m.index_lt indexLimit_lt_signBit
  unfold ofBits
  cases s with
  | plus =>
    rw [if_pos rfl, Nat.zero_add] at h
    rw [h, if_pos hlt, Nat.mod_eq_of_lt hlt, ofIndex_index]
  | minus =>
    rw [if_neg nofun] at h
    rw [h, if_neg (Nat.not_lt.2 (Nat.le_add_right _ _)), Nat.add_mod_left, Nat.mod_eq_of_lt hlt,
      ofIndex_index]

/-- Every coefficient reads back from its word. -/
theorem ofBits_toBits (c : Coefficient) : ofBits (toBits c) = c := by
  match c with
  | finite s m => exact ofBits_eq_finite (toNat_toBits_finite s m)
  | infinite .plus => decide +kernel
  | infinite .minus => decide +kernel
  | nan => decide +kernel

end Coefficient

end PowerRule
