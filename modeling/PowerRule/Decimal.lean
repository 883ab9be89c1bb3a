import PowerRule.Integer

/-!
Decimals: a whole significand times a power of ten.  They are what a text can hold of a number, and
they have two layouts:

* *positional*, all digits around a point (`1500`, `0.015`), never with an exponent;
* *scientific*, one digit before the point and the power of ten behind an `e` (`1.5e-2`).

A *literal* is a positional decimal as it is read: digits, or digits on both sides of a point.  That
the positional layout reads back is shown in `PowerRule.Decimal.RoundTrip`.
-/

namespace PowerRule

/-- The number `significand * 10 ^ exponent`. -/
@[ext] structure Decimal where
  /-- The digits, as one whole number. -/
  significand : Nat
  /-- The power of ten that the last digit stands for. -/
  exponent : Int
  deriving DecidableEq

namespace Decimal

/-! ### Layouts -/

/-- All digits in their places.  With `k + 1` digits behind the point the significand is filled up
with zeros to `k + 2` digits, so that one stands before the point. -/
def positional (d : Decimal) : List Char :=
  match d.exponent with
  | .ofNat zeros => toDigits d.significand ++ List.replicate zeros '0'
  | .negSucc k =>
    let digits := (toDigits d.significand).leftpad (k + 2) '0'
    let whole := digits.length - (k + 1)
    digits.take whole ++ '.' :: digits.drop whole

/-- The positional layout with at least one digit behind the point. -/
def pointed (d : Decimal) : List Char :=
  if d.exponent < 0 then d.positional else d.positional ++ ['.', '0']

/-- One digit, the others behind a point if there are any, and the power of ten of the first. -/
def scientific (d : Decimal) : List Char :=
  match toDigits d.significand with
  | [] => []
  | first :: others =>
    let fraction := if others = [] then [] else '.' :: others
    first :: fraction ++ 'e' :: Integer.chars (d.exponent + others.length)

/-! ### Literals -/

/-- The decimal with these digits before and behind the point. -/
def ofParts (whole fraction : List Char) : Decimal :=
  ⟨ofDigits (whole ++ fraction), -fraction.length⟩

/-- The digits behind a point, where a text starts with one.  A point without digits behind it
belongs to no literal. -/
def fractionDigits : List Char → List Char
  | '.' :: text => leadingDigits text
  | _ => []

/-- The longest literal at the start of a text, and its width. -/
def scan? (text : List Char) : Option (Decimal × Nat) :=
  let whole := leadingDigits text
  let fraction := fractionDigits (afterDigits text)
  if whole = [] then none
  else some (ofParts whole fraction,
    whole.length + if fraction = [] then 0 else fraction.length + 1)

theorem length_fractionDigits_lt {text : List Char} (h : fractionDigits text ≠ []) :
    (fractionDigits text).length < text.length := by
  rcases text with - | ⟨c, rest⟩
  · exact absurd rfl h
  · by_cases hc : c = '.'
    · subst hc
      exact Nat.lt_succ_of_le (length_leadingDigits_le rest)
    · exact absurd (by simp [fractionDigits, hc]) h

/-- A literal takes at least one character, and no more than there are. -/
theorem scan?_width {text : List Char} {d : Decimal} {width : Nat}
    (h : scan? text = some (d, width)) : 0 < width ∧ width ≤ text.length := by
  have hsum := congrArg List.length (leadingDigits_append_afterDigits text)
  rw [List.length_append] at hsum
  unfold scan? at h
  dsimp only at h
  split at h
  · cases h
  · next hne =>
    have hpos := List.length_pos_iff.2 hne
    cases h
    split
    · omega
    · next hf =>
      have := length_fractionDigits_lt hf
      omega

/-- A text that does not start with a digit starts with no literal. -/
theorem scan?_eq_none {text : List Char} (h : NoDigitAhead text) : scan? text = none := by
  unfold scan?
  rw [leadingDigits_eq_nil h]
  rfl

end Decimal

end PowerRule
