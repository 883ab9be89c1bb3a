import PowerRule.Magnitude.OfDecimal

/-!
From magnitudes to decimals: the shortest decimal that reads back as a given magnitude.

The decimals with last digit at `10 ^ e` form a grid, and a coarser grid means fewer digits.  If any
point of a grid reads back as the magnitude, then so does one of the two points around it, because
rounding keeps the order.  So the search goes from coarse to fine and asks two points of each grid,
the nearer one first; at an equal distance the upper one comes first.

It ends because one unit is `5 ^ 1074` times `10 ^ -1074`: on that grid the magnitude is itself a
point.  Hence the main statement, `ofDecimal?_shortest`: the result always reads back.
-/

namespace PowerRule

namespace Magnitude

/-! ### The grids -/

/-- The grid number `j` has its points at the multiples of `10 ^ (j - 1074)`; this is the `n`-th. -/
def gridPoint (j n : Nat) : Decimal := ⟨n, (j : Int) - 1074⟩

/-- One unit, `2 ^ -1074`, as a number of steps `10 ^ -1074` of the finest grid. -/
@[irreducible] def stepsPerUnit : Nat := 5 ^ (1074 : Nat)

/-- The place of a magnitude on the finest grid. -/
def finePlace (m : Magnitude) : Nat := m.units * stepsPerUnit

/-- Whether the magnitude nearest to `d` is `m`. -/
def IsReadFrom (m : Magnitude) (d : Decimal) : Prop := ofDecimal? d = some m

instance (m : Magnitude) (d : Decimal) : Decidable (m.IsReadFrom d) :=
  inferInstanceAs (Decidable (ofDecimal? d = some m))

/-- The points of grid `j` on the two sides of `m`, the nearer first. -/
def neighbours (m : Magnitude) (j : Nat) : List Decimal :=
  let lower := m.finePlace / 10 ^ j
  let excess := 2 * (m.finePlace % 10 ^ j)
  if excess < 10 ^ j then [gridPoint j lower, gridPoint j (lower + 1)]
  else [gridPoint j (lower + 1), gridPoint j lower]

/-! ### The search -/

/-- The first point that reads back, on grid `j` or a finer one. -/
def shortestFrom (m : Magnitude) : Nat → Decimal
  | 0 => gridPoint 0 m.finePlace
  | j + 1 => ((m.neighbours (j + 1)).find? (m.IsReadFrom ·)).getD (m.shortestFrom j)

/-- The grid to start on: ten to this number exceeds the place of `m`, since `2 ^ 93 < 10 ^ 28`, and
on a coarser grid there is nothing near `m` but zero. -/
def coarsestGrid (m : Magnitude) : Nat := (m.finePlace.log2 + 1) * 28 / 93 + 1

/-- The shortest decimal that reads back as `m`, and of those the nearest to it. -/
def shortest (m : Magnitude) : Decimal :=
  if m.isZero then ⟨0, 0⟩ else m.shortestFrom m.coarsestGrid

/-! ### The result reads back -/

theorem stepsPerUnit_mul_unitsPerOne :
    10 ^ (1074 : Nat) = stepsPerUnit * unitsPerOne := by decide +kernel

theorem stepsPerUnit_pos : 0 < stepsPerUnit := by decide +kernel

/-- On the finest grid a decimal is a quotient of its place by the steps in a unit. -/
theorem ofDecimal?_gridPoint_zero (n : Nat) : ofDecimal? (gridPoint 0 n) = round? n stepsPerUnit := by
  have habove : (((0 : Nat) : Int) - 1074).toNat = 0 := by decide
  have hbelow : (-(((0 : Nat) : Int) - 1074)).toNat = 1074 := by decide
  unfold ofDecimal? gridPoint round?
  rw [habove, hbelow, stepsPerUnit_mul_unitsPerOne, Nat.pow_zero, Nat.mul_one]
  simp only [roundUnits_mul_mul_right n stepsPerUnit unitsPerOne_pos]

/-- On the finest grid a magnitude is a point. -/
theorem isReadFrom_finePlace (m : Magnitude) : m.IsReadFrom (gridPoint 0 m.finePlace) := by
  unfold IsReadFrom
  rw [ofDecimal?_gridPoint_zero]
  exact round?_units_mul m stepsPerUnit_pos

theorem isReadFrom_shortestFrom (m : Magnitude) (j : Nat) : m.IsReadFrom (m.shortestFrom j) := by
  induction j with
  | zero => exact isReadFrom_finePlace m
  | succ j ih =>
    unfold shortestFrom
    cases h : (m.neighbours (j + 1)).find? (m.IsReadFrom ·) with
    | none => exact ih
    | some d =>
      have := List.find?_some h
      exact of_decide_eq_true this

/-- **The shortest decimal of a magnitude reads back as it.** -/
theorem ofDecimal?_shortest (m : Magnitude) : ofDecimal? m.shortest = some m := by
  unfold shortest
  split
  · next h =>
    rw [isZero_iff.1 h]
    decide +kernel
  · exact isReadFrom_shortestFrom m _

end Magnitude

end PowerRule
