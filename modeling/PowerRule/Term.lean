import PowerRule.Coefficient.Text
import PowerRule.Exponent

/-!
Terms: a coefficient times a power of the variable.  The power rule sends `c * x ^ e` to
`(c * e) * x ^ (e - 1)`, with `e` rounded to the format before the product is.
-/

namespace PowerRule

/-- The term `coefficient * x ^ exponent`. -/
@[ext] structure Term where
  coefficient : Coefficient
  exponent : Exponent
  deriving DecidableEq

namespace Term

/-- The term that does not hold the variable. -/
def constant (c : Coefficient) : Term := ⟨c, .zero⟩

/-- A term with a zero coefficient. -/
def isZero (t : Term) : Bool := t.coefficient.isZero

/-- The term behind a sign. -/
def signed (s : Sign) (t : Term) : Term := ⟨t.coefficient.signed s, t.exponent⟩

@[simp] theorem signed_plus (t : Term) : t.signed .plus = t := by
  unfold signed
  rw [Coefficient.signed_plus]

/-- Equality of coefficients by value, and of exponents. -/
def sameValue (t u : Term) : Bool :=
  t.coefficient.sameValue u.coefficient && t.exponent = u.exponent

/-! ### The power rule -/

/-- The derivative of a term. -/
def derivative (t : Term) : Term :=
  ⟨t.coefficient * .ofInt t.exponent.val, t.exponent.pred⟩

/-- A sign passes through the derivative. -/
theorem derivative_signed (s : Sign) (t : Term) :
    (t.signed s).derivative = t.derivative.signed s := by
  unfold derivative signed
  rw [Coefficient.signed_mul]

/-! ### Written form -/

/-- The power of the variable: none for exponent zero, and no exponent for exponent one. -/
def powerChars (e : Exponent) : List Char :=
  if e = .zero then [] else if e = .one then ['x'] else 'x' :: '^' :: e.chars

/-- The text of a term. -/
def chars (t : Term) : List Char := t.coefficient.chars ++ powerChars t.exponent

/-- The text of a term. -/
def text (t : Term) : String := .ofList t.chars

end Term

end PowerRule
