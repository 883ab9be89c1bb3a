import PowerRule.Coefficient
import PowerRule.Magnitude.Shortest

/-!
The numerals of a coefficient.

* In a polynomial a coefficient is read from a literal (`scan?`), rounded to the nearest magnitude; a
  literal beyond the format is none.  It is written (`chars`) with all digits in their places, however
  many they are, and a zero has no sign.
* In a record (`recordChars`) a number outside `[10 ^ -4, 10 ^ 16)` is scientific, a number inside it
  has a digit behind the point, and a zero keeps its sign.

Both are written with the shortest digits that read back, so a number without a sign is read as it was
written (`scan?_chars_append`).
-/

namespace PowerRule

/-- Whether a record writes the digits of this magnitude in their places: it is zero, or at least
`10 ^ -4` and less than `10 ^ 16`. -/
def Magnitude.isPlain (m : Magnitude) : Bool :=
  m.isZero || 10 ^ (1074 - 4 : Nat) ≤ m.finePlace && m.finePlace < 10 ^ (1074 + 16 : Nat)

namespace Coefficient

/-! ### In a polynomial -/

def infinityChars : List Char := ['i', 'n', 'f']

def nanChars : List Char := ['N', 'a', 'N']

/-- The numeral of a coefficient in a polynomial. -/
def chars : Coefficient → List Char
  | finite s m => (if m.isZero then [] else s.mark) ++ m.shortest.positional
  | infinite s => s.mark ++ infinityChars
  | nan => nanChars

theorem chars_plus (m : Magnitude) : (finite .plus m).chars = m.shortest.positional := by
  show (if m.isZero then [] else []) ++ m.shortest.positional = _
  rw [ite_self, List.nil_append]

/-- The coefficient that the literal at the start of a text writes, and its width. -/
def scan? (text : List Char) : Option (Coefficient × Nat) :=
  (Decimal.scan? text).bind fun (d, width) =>
    (Magnitude.ofDecimal? d).map fun m => (finite .plus m, width)

/-- A coefficient takes at least one character, and no more than there are. -/
theorem scan?_width {text : List Char} {c : Coefficient} {width : Nat}
    (h : scan? text = some (c, width)) : 0 < width ∧ width ≤ text.length := by
  obtain ⟨⟨d, w⟩, hscan, hmap⟩ := Option.bind_eq_some_iff.1 h
  obtain ⟨m, _, hpair⟩ := Option.map_eq_some_iff.1 hmap
  cases hpair
  exact Decimal.scan?_width hscan

/-- **A number without a sign is read as it was written.** -/
theorem scan?_chars_append (m : Magnitude) {rest : List Char} (hr : NoDigitAhead rest)
    (hf : Decimal.fractionDigits rest = []) :
    scan? ((finite .plus m).chars ++ rest)
      = some (finite .plus m, (finite .plus m).chars.length) := by
  rw [chars_plus]
  unfold scan?
  rw [Decimal.scan?_positional_append m.shortest hr hf, Option.bind_some]
  dsimp only
  rw [Magnitude.ofDecimal?_spelledOut, Magnitude.ofDecimal?_shortest, Option.map_some]

/-! ### In a record -/

/-- The numeral of a coefficient in a record. -/
def recordChars : Coefficient → List Char
  | finite s m => s.mark ++ if m.isPlain then m.shortest.pointed else m.shortest.scientific
  | infinite s => s.mark ++ infinityChars
  | nan => nanChars

end Coefficient

end PowerRule
