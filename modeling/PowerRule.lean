import PowerRule.Coefficient
import PowerRule.Coefficient.Bits
import PowerRule.Coefficient.Text
import PowerRule.Decimal
import PowerRule.Decimal.RoundTrip
import PowerRule.Exponent
import PowerRule.Integer
import PowerRule.Magnitude
import PowerRule.Magnitude.OfDecimal
import PowerRule.Magnitude.Shortest
import PowerRule.Poly
import PowerRule.Poly.OfTokens
import PowerRule.Poly.Parse
import PowerRule.Proofs.Alternation
import PowerRule.Proofs.Calls
import PowerRule.Proofs.Canonical
import PowerRule.Proofs.ExactDerivative
import PowerRule.Proofs.ForeignCharacter
import PowerRule.Proofs.Grammar
import PowerRule.Proofs.Items
import PowerRule.Proofs.Lexeme
import PowerRule.Proofs.Literals
import PowerRule.Proofs.MaximalMunch
import PowerRule.Proofs.Meaning
import PowerRule.Proofs.Nearest
import PowerRule.Proofs.Negation
import PowerRule.Proofs.Nonfinite
import PowerRule.Proofs.RecordNumeral
import PowerRule.Proofs.Records
import PowerRule.Proofs.RoundedProduct
import PowerRule.Proofs.Seam
import PowerRule.Proofs.ShortestDecimal
import PowerRule.Proofs.ShortestNumeral
import PowerRule.Proofs.SpacedTokens
import PowerRule.Proofs.Spelling
import PowerRule.Proofs.SumRule
import PowerRule.Proofs.TextDerivative
import PowerRule.Proofs.Vanishing
import PowerRule.Proofs.Whole
import PowerRule.Proofs.Written
import PowerRule.Record
import PowerRule.Rounding
import PowerRule.Sign
import PowerRule.Term
import PowerRule.Token
import PowerRule.TokenStream
import PowerRule.Traced
