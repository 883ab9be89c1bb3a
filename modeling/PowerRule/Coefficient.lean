import PowerRule.Magnitude
import PowerRule.Sign

/-!
Coefficients: the numbers of the binary64 format.  A coefficient is a magnitude with a sign, an
infinity with a sign, or the one value that is not a number.  Zero keeps its sign.

Multiplication follows the format's rule: the signs multiply, the magnitudes multiply exactly, and
the product is rounded once; a product beyond the format is infinite, and an infinity times zero is
not a number.
-/

namespace PowerRule

/-- A number of the binary64 format. -/
inductive Coefficient where
  | finite (sign : Sign) (magnitude : Magnitude)
  | infinite (sign : Sign)
  | nan
  deriving DecidableEq

namespace Coefficient

/-! ### Making coefficients -/

def zero : Coefficient := finite .plus .zero

def one : Coefficient := finite .plus .one

/-- The number nearest to `num / den` units with this sign, infinite if that is beyond the
format. -/
def ofQuotient (sign : Sign) (num den : Nat) : Coefficient :=
  (Magnitude.round? num den).elim (infinite sign) (finite sign)

/-- The number nearest to an integer. -/
def ofInt (n : Int) : Coefficient :=
  ofQuotient (if n < 0 then .minus else .plus) (n.natAbs * unitsPerOne) 1

/-! ### What a coefficient is -/

/-- Zero of either sign. -/
def isZero : Coefficient → Bool
  | finite _ m => m.isZero
  | _ => false

/-- Greater than zero. -/
def isPositive : Coefficient → Bool
  | finite .plus m => !m.isZero
  | infinite .plus => true
  | _ => false

def isFinite : Coefficient → Bool
  | finite _ _ => true
  | _ => false

/-- Equality of values: the two zeros are equal, and what is not a number equals nothing. -/
def sameValue : Coefficient → Coefficient → Bool
  | finite s m, finite t n => m = n && (s = t || m.isZero)
  | infinite s, infinite t => s = t
  | _, _ => false

/-! ### Arithmetic -/

/-- Multiplication by a sign. -/
def signed (sign : Sign) : Coefficient → Coefficient
  | finite s m => finite (sign * s) m
  | infinite s => infinite (sign * s)
  | nan => nan

/-- The rounded product. -/
def mul : Coefficient → Coefficient → Coefficient
  | finite s m, finite t n => ofQuotient (s * t) (m.units * n.units) unitsPerOne
  | finite s m, infinite t => if m.isZero then nan else infinite (s * t)
  | infinite s, finite t n => if n.isZero then nan else infinite (s * t)
  | infinite s, infinite t => infinite (s * t)
  | nan, _ => nan
  | _, nan => nan

instance : Mul Coefficient := ⟨mul⟩

/-- The product of finite numbers is the exact product of their units, rounded once. -/
theorem finite_mul_finite (s t : Sign) (m n : Magnitude) :
    finite s m * finite t n = ofQuotient (s * t) (m.units * n.units) unitsPerOne := rfl

/-! ### Signs pass through -/

@[simp] theorem signed_plus (c : Coefficient) : c.signed .plus = c := by
  cases c <;> simp [signed]

/-- Two signs act as their product. -/
theorem signed_signed (s t : Sign) (c : Coefficient) :
    (c.signed t).signed s = c.signed (s * t) := by
  cases c <;> simp [signed, Sign.mul_assoc]

@[simp] theorem isZero_signed (s : Sign) (c : Coefficient) : (c.signed s).isZero = c.isZero := by
  cases c <;> rfl

theorem signed_ofQuotient (s t : Sign) (num den : Nat) :
    (ofQuotient t num den).signed s = ofQuotient (s * t) num den := by
  unfold ofQuotient
  cases Magnitude.round? num den <;> rfl

/-- A sign can be taken out of a product. -/
theorem signed_mul (s : Sign) (a b : Coefficient) : a.signed s * b = (a * b).signed s := by
  match a, b with
  | finite t m, finite u n =>
    rw [signed, finite_mul_finite, finite_mul_finite, signed_ofQuotient, Sign.mul_assoc]
  | finite t m, infinite u =>
    show mul _ _ = (mul _ _).signed s
    simp only [signed, mul, Sign.mul_assoc]
    split <;> rfl
  | infinite t, finite u n =>
    show mul _ _ = (mul _ _).signed s
    simp only [signed, mul, Sign.mul_assoc]
    split <;> rfl
  | infinite t, infinite u => exact congrArg infinite (Sign.mul_assoc s t u)
  | finite _ _, nan => rfl
  | infinite _, nan => rfl
  | nan, _ => rfl

end Coefficient

end PowerRule
