/-!
Signs.  A sign joins the terms of a sum, and it is also half of a number: `- 3x` holds the number
`-3`.  Signs multiply as numbers do.
-/

namespace PowerRule

/-- The two signs. -/
inductive Sign where
  | plus
  | minus
  deriving DecidableEq

namespace Sign

/-! ### Written form -/

/-- A sign is written as one character. -/
def lexeme : Sign → Char
  | plus => '+'
  | minus => '-'

/-- What a sign puts before a number: a minus is written and a plus is not. -/
def mark : Sign → List Char
  | plus => []
  | minus => [minus.lexeme]

/-- The sign that a character writes. -/
def ofChar? (c : Char) : Option Sign :=
  if c = '+' then some plus else if c = '-' then some minus else none

@[simp] theorem ofChar?_lexeme (s : Sign) : ofChar? s.lexeme = some s := by
  cases s <;> rfl

/-- No other character writes a sign. -/
theorem ofChar?_eq_some_iff {c : Char} {s : Sign} : ofChar? c = some s ↔ c = s.lexeme := by
  constructor
  · intro h
    unfold ofChar? at h
    split at h
    · next hc => cases h; exact hc
    · split at h
      · next hc => cases h; exact hc
      · cases h
  · rintro rfl
    exact ofChar?_lexeme s

/-! ### Multiplication -/

/-- Equal signs give plus, different ones minus. -/
def mul (s t : Sign) : Sign := if s = t then plus else minus

instance : Mul Sign := ⟨mul⟩

@[simp] theorem plus_mul (s : Sign) : plus * s = s := by cases s <;> rfl

@[simp] theorem mul_plus (s : Sign) : s * plus = s := by cases s <;> rfl

@[simp] theorem mul_self (s : Sign) : s * s = plus := by cases s <;> rfl

theorem mul_comm (s t : Sign) : s * t = t * s := by cases s <;> cases t <;> rfl

theorem mul_assoc (s t u : Sign) : s * t * u = s * (t * u) := by
  cases s <;> cases t <;> cases u <;> rfl

end Sign

end PowerRule
