import PowerRule.Poly

/-!
From tokens to polynomials.  The tokens of a polynomial alternate: a term, an operator, a term, and so
on, with a term at the end and perhaps an operator before the first term.  A term gets the sign of the
operator before it.

Any other sequence has a first place at which it goes wrong, and there are three ways to go wrong.
-/

namespace PowerRule

/-- How a sequence of tokens stops being a sum of terms. -/
inductive Fault where
  /-- It ends where a term has to stand. -/
  | endForTerm
  /-- An operator stands where a term has to stand. -/
  | operatorForTerm
  /-- A term stands behind a term. -/
  | termAfterTerm
  deriving DecidableEq

namespace Fault

/-- What a record says of a fault. -/
def message : Fault → String
  | endForTerm => "expected " ++ Token.Kind.term.name ++ ", found end of input"
  | operatorForTerm => "expected " ++ Token.Kind.term.name ++ ", found " ++ Token.Kind.operator.name
  | termAfterTerm => "unexpected " ++ Token.Kind.term.name ++ " after last term"

end Fault

namespace Poly

/-- The polynomial of these tokens when a sign stands before them. -/
def ofTokensAfter (s : Sign) : List Token → Except Fault Poly
  | [] => .error .endForTerm
  | .operator _ :: _ => .error .operatorForTerm
  | [.term t] => .ok [t.signed s]
  | .term t :: .operator r :: tokens => (ofTokensAfter r tokens).map (t.signed s :: ·)
  | .term _ :: .term _ :: _ => .error .termAfterTerm

/-- The polynomial that a sequence of tokens writes. -/
def ofTokens : List Token → Except Fault Poly
  | .operator s :: tokens => ofTokensAfter s tokens
  | tokens => ofTokensAfter .plus tokens

end Poly

end PowerRule
