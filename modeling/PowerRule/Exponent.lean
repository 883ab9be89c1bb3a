import PowerRule.Integer

/-!
Exponents: the integers of 64 bits.  A literal beyond them is no exponent, and the step down from the
least of them stays there.
-/

namespace PowerRule

/-- An integer from `-2 ^ 63` to `2 ^ 63 - 1`. -/
@[ext] structure Exponent where
  val : Int
  le_val : -9223372036854775808 ≤ val
  val_le : val ≤ 9223372036854775807
  deriving DecidableEq

namespace Exponent

/-! ### Making exponents -/

def zero : Exponent := ⟨0, by decide, by decide⟩

def one : Exponent := ⟨1, by decide, by decide⟩

def least : Exponent := ⟨-9223372036854775808, by decide, by decide⟩

def greatest : Exponent := ⟨9223372036854775807, by decide, by decide⟩

/-- The exponent with this value, if it is in range. -/
def ofInt? (n : Int) : Option Exponent :=
  if h : -9223372036854775808 ≤ n ∧ n ≤ 9223372036854775807 then some ⟨n, h.1, h.2⟩ else none

theorem ofInt?_eq_some_iff {n : Int} {e : Exponent} : ofInt? n = some e ↔ n = e.val := by
  unfold ofInt?
  split
  · rw [Option.some.injEq, Exponent.ext_iff]
  · next h => exact ⟨nofun, fun he => absurd (he ▸ ⟨e.le_val, e.val_le⟩) h⟩

@[simp] theorem ofInt?_val (e : Exponent) : ofInt? e.val = some e :=
  ofInt?_eq_some_iff.2 rfl

/-- One less, but never below the least. -/
def pred (e : Exponent) : Exponent where
  val := max (e.val - 1) least.val
  le_val := Int.le_max_right _ _
  val_le := by
    have := e.val_le
    exact Int.max_le.2 ⟨by omega, by decide⟩

/-! ### Written form -/

/-- The text of an exponent. -/
def chars (e : Exponent) : List Char := Integer.chars e.val

/-- The exponent at the start of a text, and its width. -/
def scan? (text : List Char) : Option (Exponent × Nat) :=
  (Integer.scan? text).bind fun (n, width) => (ofInt? n).map (·, width)

/-- An exponent takes at least one character, and no more than there are. -/
theorem scan?_width {text : List Char} {e : Exponent} {width : Nat}
    (h : scan? text = some (e, width)) : 0 < width ∧ width ≤ text.length := by
  obtain ⟨⟨n, w⟩, hscan, hmap⟩ := Option.bind_eq_some_iff.1 h
  obtain ⟨k, hk, hpair⟩ := Option.map_eq_some_iff.1 hmap
  cases hpair
  exact Integer.scan?_width hscan

/-- An exponent reads back from its text. -/
theorem scan?_chars_append (e : Exponent) {rest : List Char} (hr : NoDigitAhead rest) :
    scan? (e.chars ++ rest) = some (e, e.chars.length) := by
  unfold scan? chars
  rw [Integer.scan?_chars_append e.val hr, Option.bind_some]
  dsimp only
  rw [ofInt?_val, Option.map_some]

end Exponent

end PowerRule
