/-!
Whole numbers in decimal, with the ten ASCII digits.  A natural number is written by its digits
without leading zeros, and a run of digits is read from left to right, leading zeros allowed.  An
integer has a `-` before its digits when it is negative, and is read by the same form.

Here and below, a *scan* looks at the start of a text and gives the value that stands there with its
width, the number of characters that it takes; what follows is the text without so many characters.
Writing and scanning fit together:

    scan? (chars n ++ rest) = some (n, (chars n).length)   when `rest` does not go on with a digit.
-/

namespace PowerRule

-- Powers of natural numbers are the core library's, whatever else is imported.
attribute [scoped instance (high)] instPowNat

/-! ### Runs of digits -/

/-- The digits that a text starts with. -/
def leadingDigits (text : List Char) : List Char := text.takeWhile Char.isDigit

/-- What follows the digits that a text starts with. -/
def afterDigits (text : List Char) : List Char := text.dropWhile Char.isDigit

@[simp] theorem leadingDigits_append_afterDigits (text : List Char) :
    leadingDigits text ++ afterDigits text = text :=
  List.takeWhile_append_dropWhile

theorem length_leadingDigits_le (text : List Char) : (leadingDigits text).length ≤ text.length :=
  (List.takeWhile_sublist Char.isDigit).length_le

theorem isDigit_of_mem_leadingDigits {text : List Char} {c : Char} (h : c ∈ leadingDigits text) :
    c.isDigit = true := by
  have := List.all_takeWhile (p := Char.isDigit) (l := text)
  exact List.all_eq_true.1 this c h

/-- A text that does not go on with a digit. -/
def NoDigitAhead (text : List Char) : Prop := ∀ c ∈ text.head?, c.isDigit = false

theorem leadingDigits_eq_nil {text : List Char} (h : NoDigitAhead text) :
    leadingDigits text = [] := by
  cases text with
  | nil => rfl
  | cons c rest => simp [leadingDigits, h c (by simp)]

theorem afterDigits_eq_self {text : List Char} (h : NoDigitAhead text) :
    afterDigits text = text := by
  have := leadingDigits_append_afterDigits text
  rwa [leadingDigits_eq_nil h] at this

theorem leadingDigits_append {digits rest : List Char} (hd : ∀ c ∈ digits, c.isDigit = true)
    (hr : NoDigitAhead rest) : leadingDigits (digits ++ rest) = digits := by
  unfold leadingDigits
  rw [List.takeWhile_append_of_pos hd]
  have := leadingDigits_eq_nil hr
  unfold leadingDigits at this
  rw [this, List.append_nil]

theorem afterDigits_append {digits rest : List Char} (hd : ∀ c ∈ digits, c.isDigit = true)
    (hr : NoDigitAhead rest) : afterDigits (digits ++ rest) = rest := by
  unfold afterDigits
  rw [List.dropWhile_append_of_pos hd]
  exact afterDigits_eq_self hr

/-- The number that a run of digits writes. -/
def ofDigits (digits : List Char) : Nat := Nat.ofDigitChars 10 digits 0

/-- The digits of a number, without leading zeros. -/
def toDigits (n : Nat) : List Char := Nat.toDigits 10 n

@[simp] theorem ofDigits_toDigits (n : Nat) : ofDigits (toDigits n) = n :=
  Nat.ofDigitChars_ten_toDigits

theorem isDigit_of_mem_toDigits {n : Nat} {c : Char} (h : c ∈ toDigits n) : c.isDigit = true :=
  Nat.isDigit_of_mem_toDigits (by decide) (by decide) h

@[simp] theorem toDigits_ne_nil (n : Nat) : toDigits n ≠ [] := Nat.toDigits_ne_nil

/-! ### Integers -/

namespace Integer

/-- The text of an integer. -/
def chars (n : Int) : List Char :=
  if n < 0 then '-' :: toDigits n.natAbs else toDigits n.natAbs

/-- The natural number at the start of a text, and its width. -/
def scanNat? (text : List Char) : Option (Nat × Nat) :=
  let digits := leadingDigits text
  if digits = [] then none else some (ofDigits digits, digits.length)

/-- The integer at the start of a text, and its width. -/
def scan? : List Char → Option (Int × Nat)
  | '-' :: text => (scanNat? text).map fun (n, width) => (-(n : Int), width + 1)
  | text => (scanNat? text).map fun (n, width) => ((n : Int), width)

theorem scanNat?_width {text : List Char} {n width : Nat} (h : scanNat? text = some (n, width)) :
    0 < width ∧ width ≤ text.length := by
  unfold scanNat? at h
  dsimp only at h
  split at h
  · cases h
  · next hne =>
    cases h
    exact ⟨List.length_pos_iff.2 hne, length_leadingDigits_le text⟩

/-- An integer takes at least one character, and no more than there are. -/
theorem scan?_width {text : List Char} {n : Int} {width : Nat} (h : scan? text = some (n, width)) :
    0 < width ∧ width ≤ text.length := by
  unfold scan? at h
  split at h
  · obtain ⟨⟨k, w⟩, hk, he⟩ := Option.map_eq_some_iff.1 h
    cases he
    exact ⟨Nat.succ_pos w, Nat.succ_le_succ (scanNat?_width hk).2⟩
  · obtain ⟨⟨k, w⟩, hk, he⟩ := Option.map_eq_some_iff.1 h
    cases he
    exact scanNat?_width hk

theorem scanNat?_append (n : Nat) {rest : List Char} (hr : NoDigitAhead rest) :
    scanNat? (toDigits n ++ rest) = some (n, (toDigits n).length) := by
  unfold scanNat?
  rw [leadingDigits_append (fun _ => isDigit_of_mem_toDigits) hr]
  simp

/-- An integer reads back from its text. -/
theorem scan?_chars_append (n : Int) {rest : List Char} (hr : NoDigitAhead rest) :
    scan? (chars n ++ rest) = some (n, (chars n).length) := by
  unfold chars
  split
  · next hn =>
    show (scanNat? (toDigits n.natAbs ++ rest)).map _ = _
    rw [scanNat?_append _ hr, Option.map_some]
    simp only [List.length_cons, Option.some.injEq, Prod.mk.injEq, and_true]
    omega
  · next hn =>
    have hscan := scanNat?_append n.natAbs hr
    unfold scan?
    split
    · next tail htext =>
      -- The scan would take a minus here, but the text starts with a digit.
      have hmem : '-' ∈ toDigits n.natAbs := by
        cases hd : toDigits n.natAbs with
        | nil => exact absurd hd (toDigits_ne_nil _)
        | cons c cs =>
          rw [hd] at htext
          simp only [List.cons_append, List.cons.injEq] at htext
          simp [htext.1]
      exact absurd (isDigit_of_mem_toDigits hmem) (by decide)
    · rw [hscan, Option.map_some]
      simp only [Option.some.injEq, Prod.mk.injEq, and_true]
      omega

end Integer

end PowerRule
