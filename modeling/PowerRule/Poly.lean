import PowerRule.Token

/-!
Polynomials: sums of terms in the order in which they are written.  Terms of the same power are not
put together, and zero terms stay until the polynomial is written.

The derivative is taken term by term; it keeps the number of terms and their order, and a sign passes
through it.
-/

namespace PowerRule

/-- The sum of these terms. -/
abbrev Poly := List Term

namespace Poly

/-! ### Derivatives -/

/-- The derivative, term by term. -/
def derivative (p : Poly) : Poly := p.map Term.derivative

/-- The derivative of an order; of order zero it is the polynomial itself. -/
def nthDerivative (p : Poly) : Nat → Poly
  | 0 => p
  | n + 1 => nthDerivative p.derivative n

@[simp] theorem length_derivative (p : Poly) : p.derivative.length = p.length :=
  List.length_map ..

@[simp] theorem length_nthDerivative (p : Poly) (n : Nat) : (p.nthDerivative n).length = p.length := by
  induction n generalizing p with
  | zero => rfl
  | succ n ih => rw [nthDerivative, ih, length_derivative]

/-- Orders add up. -/
theorem nthDerivative_add (p : Poly) (m n : Nat) :
    p.nthDerivative (m + n) = (p.nthDerivative m).nthDerivative n := by
  induction m generalizing p with
  | zero => rw [Nat.zero_add]; rfl
  | succ m ih => rw [Nat.succ_add]; exact ih p.derivative

/-! ### Signs and zero terms -/

/-- The polynomial behind a sign. -/
def signed (s : Sign) (p : Poly) : Poly := p.map (Term.signed s)

/-- The terms that are not zero. -/
def nonzero (p : Poly) : Poly := p.filter fun t => !t.isZero

theorem derivative_signed (s : Sign) (p : Poly) :
    derivative (signed s p) = signed s (derivative p) := by
  unfold derivative signed
  rw [List.map_map, List.map_map]
  exact List.map_congr_left fun t _ => Term.derivative_signed s t

/-! ### Written form -/

/-- A term with a plus before it if it is positive; a negative one brings its own minus, and what is
not a number has no sign. -/
def signedChars (t : Term) : List Char :=
  if t.coefficient.isPositive then Sign.plus.lexeme :: t.chars else t.chars

/-- The text without the plus that it starts with, if it does. -/
def dropPlus : List Char → List Char
  | '+' :: text => text
  | text => text

/-- The text of a polynomial: its terms that are not zero, joined by their signs, or `0`. -/
def chars (p : Poly) : List Char :=
  let text := dropPlus (p.nonzero.flatMap signedChars)
  if text = [] then ['0'] else text

/-- The text of a polynomial. -/
def text (p : Poly) : String := .ofList p.chars

end Poly

end PowerRule
