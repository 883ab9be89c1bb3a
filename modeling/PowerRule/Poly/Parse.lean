import PowerRule.Poly.OfTokens
import PowerRule.TokenStream

/-!
Reading polynomials, and the operations on texts.

A text is taken token by token first and put together afterwards, so a place without a token is
reported even if the tokens before it are already no sum of terms.
-/

namespace PowerRule

/-- Why a text is no polynomial. -/
inductive ParseError where
  /-- No token starts at this offset. -/
  | malformed (offset : Nat)
  /-- The tokens are no sum of terms. -/
  | ungrammatical (fault : Fault)
  deriving DecidableEq

/-- Results can be compared, so what a text is read as can be decided. -/
instance decidableEqExcept {ε α : Type} [DecidableEq ε] [DecidableEq α] : DecidableEq (Except ε α)
  | .ok a, .ok b => decidable_of_iff (a = b) (by rw [Except.ok.injEq])
  | .error e, .error f => decidable_of_iff (e = f) (by rw [Except.error.injEq])
  | .ok _, .error _ => isFalse nofun
  | .error _, .ok _ => isFalse nofun

namespace ParseError

/-- What a caller is told. -/
def message : ParseError → String
  | malformed _ => "Malformed Polynomial"
  | ungrammatical _ => "Expected: " ++ Token.Kind.term.name

def isMalformed : ParseError → Bool
  | malformed _ => true
  | ungrammatical _ => false

def isUngrammatical : ParseError → Bool
  | malformed _ => false
  | ungrammatical _ => true

end ParseError

/-- The tokens among the items of a stream, or the offset at which it failed. -/
def tokensOf : List Item → Except ParseError (List Token)
  | [] => .ok []
  | .token _ t :: items => (tokensOf items).map (t :: ·)
  | .malformed offset :: _ => .error (.malformed offset)

namespace Poly

/-! ### Reading -/

/-- The polynomial that the items of a stream write. -/
def ofItems (items : List Item) : Except ParseError Poly :=
  (tokensOf items).bind fun tokens => (ofTokens tokens).mapError .ungrammatical

/-- The polynomial that a text writes. -/
def parseChars (text : List Char) : Except ParseError Poly :=
  ofItems (TokenStream.ofChars text).items

/-- The polynomial that a text writes. -/
def parse (text : String) : Except ParseError Poly := parseChars text.toList

/-! ### From text to text -/

/-- The text of the derivative of an order. -/
def nthDerivativeText (text : String) (order : Nat) : Except ParseError String :=
  (parse text).map fun p => (p.nthDerivative order).text

/-- The text of the derivative. -/
def derivativeText (text : String) : Except ParseError String := nthDerivativeText text 1

/-- A text in the form in which polynomials are written. -/
def reformat (text : String) : Except ParseError String := (parse text).map Poly.text

end Poly

end PowerRule
