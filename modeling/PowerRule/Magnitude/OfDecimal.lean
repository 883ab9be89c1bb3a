import PowerRule.Decimal.RoundTrip
import PowerRule.Magnitude

/-!
From decimals to magnitudes.  A decimal has a nearest magnitude, with ties to the even one, or lies
beyond the format; there is no limit on its digits.
-/

namespace PowerRule

namespace Magnitude

/-- The magnitude nearest to a decimal.  The quotient is the decimal in units, its power of ten
standing above or below the line. -/
def ofDecimal? (d : Decimal) : Option Magnitude :=
  round? (d.significand * 10 ^ d.exponent.toNat * unitsPerOne) (10 ^ (-d.exponent).toNat)

/-- Spelling out zeros changes nothing. -/
theorem ofDecimal?_spelledOut (d : Decimal) : ofDecimal? d.spelledOut = ofDecimal? d := by
  obtain ⟨n, e⟩ := d
  cases e with
  | ofNat zeros =>
    show round? (n * 10 ^ zeros * 10 ^ (0 : Nat) * unitsPerOne) (10 ^ (0 : Nat))
      = round? (n * 10 ^ zeros * unitsPerOne) (10 ^ (-(zeros : Int)).toNat)
    have hbelow : (-(zeros : Int)).toNat = 0 := by omega
    rw [hbelow, Nat.pow_zero, Nat.mul_one]
  | negSucc k => rfl

end Magnitude

end PowerRule
