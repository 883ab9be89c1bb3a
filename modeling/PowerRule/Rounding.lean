/-!
Rounding a quotient to a whole number.  `roundDiv num den` is the whole number nearest to
`num / den`, and of two equally near ones the even one.  It is the floor or the number after it,
leaves whole quotients alone, keeps the order, and depends on the quotient only.
-/

namespace PowerRule

/-- The whole number nearest to `num / den`; a half goes to the even neighbour. -/
def roundDiv (num den : Nat) : Nat :=
  let floor := num / den
  let excess := 2 * (num % den)
  if excess < den then floor
  else if den < excess then floor + 1
  else floor + floor % 2

/-! ### Where the result lies -/

/-- Below a half the floor, above a half the next number, at a half the even one of the two. -/
theorem roundDiv_cases (num den : Nat) :
    (2 * (num % den) < den ∧ roundDiv num den = num / den) ∨
    (den < 2 * (num % den) ∧ roundDiv num den = num / den + 1) ∨
    (2 * (num % den) = den ∧ roundDiv num den = num / den + num / den % 2) := by
  unfold roundDiv
  dsimp only
  split
  · exact .inl ⟨‹_›, rfl⟩
  · split
    · exact .inr (.inl ⟨‹_›, rfl⟩)
    · exact .inr (.inr ⟨by omega, rfl⟩)

theorem div_le_roundDiv (num den : Nat) : num / den ≤ roundDiv num den := by
  have := roundDiv_cases num den
  omega

theorem roundDiv_le_succ (num den : Nat) : roundDiv num den ≤ num / den + 1 := by
  have := roundDiv_cases num den
  omega

/-- At a half the result is even. -/
theorem roundDiv_even_of_half {num den : Nat} (h : 2 * (num % den) = den) :
    roundDiv num den % 2 = 0 := by
  have := roundDiv_cases num den
  omega

/-! ### Whole quotients, common factors, order -/

/-- A whole quotient is left alone. -/
@[simp] theorem roundDiv_mul_self (n : Nat) {den : Nat} (h : 0 < den) :
    roundDiv (n * den) den = n := by
  unfold roundDiv
  simp [Nat.mul_div_cancel n h, h]

/-- A common factor changes nothing. -/
theorem roundDiv_mul_mul_right (num den : Nat) {c : Nat} (h : 0 < c) :
    roundDiv (num * c) (den * c) = roundDiv num den := by
  have hdiv : num * c / (den * c) = num / den := Nat.mul_div_mul_right num den h
  have hmod : num * c % (den * c) = num % den * c := Nat.mul_mod_mul_right c num den
  have hlt : 2 * (num % den * c) < den * c ↔ 2 * (num % den) < den := by
    rw [← Nat.mul_assoc]; exact Nat.mul_lt_mul_right h
  have hgt : den * c < 2 * (num % den * c) ↔ den < 2 * (num % den) := by
    rw [← Nat.mul_assoc]; exact Nat.mul_lt_mul_right h
  unfold roundDiv
  simp only [hdiv, hmod, hlt, hgt]

/-- A greater numerator gives no smaller result. -/
theorem roundDiv_mono {a b : Nat} (den : Nat) (h : a ≤ b) : roundDiv a den ≤ roundDiv b den := by
  rcases Nat.lt_or_ge (a / den) (b / den) with hlt | hge
  · exact Nat.le_trans (roundDiv_le_succ a den) (Nat.le_trans hlt (div_le_roundDiv b den))
  · have heq : a / den = b / den := Nat.le_antisymm (Nat.div_le_div_right h) hge
    have hmod : a % den ≤ b % den := by
      have ha := Nat.div_add_mod a den
      have hb := Nat.div_add_mod b den
      rw [heq] at ha
      omega
    have hca := roundDiv_cases a den
    have hcb := roundDiv_cases b den
    rw [heq] at hca
    omega

end PowerRule
