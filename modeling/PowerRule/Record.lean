import PowerRule.Poly.OfTokens
import PowerRule.TokenStream

/-!
Records: what a run says about itself, one line at a time.

There is a record for each item of a token stream, one for the outcome of putting tokens together,
and one for each derivative taken.  A line is the level, the part of the program that speaks, and the
message.
-/

namespace PowerRule

/-- One step of a run. -/
inductive Record where
  /-- A token was taken at an offset. -/
  | token (start : Nat) (t : Token)
  /-- No token starts at an offset. -/
  | noToken (offset : Nat)
  /-- Tokens were put together to so many terms. -/
  | parsed (terms : Nat)
  /-- Tokens could not be put together. -/
  | fault (f : Fault)
  /-- A polynomial of so many terms was differentiated. -/
  | differentiated (terms : Nat)
  deriving DecidableEq

/-- How much a reader has to want to know to see a record. -/
inductive Record.Level where
  | debug
  | trace
  deriving DecidableEq

/-! ### Tokens in records -/

/-- How records call a sign. -/
def Sign.recordName : Sign → String
  | plus => "Plus"
  | minus => "Minus"

/-- The text of a token in a record. -/
def Token.recordText : Token → String
  | term t =>
    "Term(Term \x7b coefficient: " ++ .ofList t.coefficient.recordChars ++
      ", exponent: " ++ .ofList t.exponent.chars ++ " \x7d)"
  | operator s => "Operator(" ++ s.recordName ++ ")"

namespace Record

/-! ### Lines -/

def level : Record → Level
  | token _ _ => .trace
  | noToken _ => .trace
  | parsed _ => .debug
  | fault _ => .debug
  | differentiated _ => .debug

def Level.name : Level → String
  | debug => "DEBUG"
  | trace => "TRACE"

/-- The part of the program that speaks. -/
def target : Record → String
  | token _ _ => "polydiff::lexer"
  | noToken _ => "polydiff::lexer"
  | parsed _ => "polydiff::parser"
  | fault _ => "polydiff::parser"
  | differentiated _ => "polydiff::calculus::differentiate"

/-- A count or an offset in a message. -/
def numeral (n : Nat) : String := .ofList (toDigits n)

/-- It is the decimal numeral without zeros in front. -/
theorem numeral_eq (n : Nat) : numeral n = toString n :=
  Nat.toString_eq_ofList_toDigits.symm

def message : Record → String
  | token start t => "token " ++ t.recordText ++ " at " ++ numeral start
  | noToken offset => "no lexical form matches at " ++ numeral offset
  | parsed terms => "parsed " ++ numeral terms ++ " terms"
  | fault f => f.message
  | differentiated terms => "differentiated " ++ numeral terms ++ " terms"

/-- The line of a record. -/
def line (r : Record) : String := r.level.name ++ " " ++ r.target ++ ": " ++ r.message

/-! ### The record of a step -/

/-- The record of an item of a stream. -/
def ofItem : Item → Record
  | .token start t => token start t
  | .malformed offset => noToken offset

/-- The record of an attempt to put tokens together. -/
def ofOutcome : Except Fault Poly → Record
  | .ok p => parsed p.length
  | .error f => fault f

end Record

end PowerRule
