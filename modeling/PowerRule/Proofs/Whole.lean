import PowerRule.Coefficient.Text

/-!
Whole numbers in the format.

Every whole number up to `2 ^ 53` is a number of the format (`Magnitude.whole`).  So an integer of this
size is not rounded, nor is a product of two whole numbers if it is of this size again.

The shortest digits of such a number are its own digits:

    (whole n h).shortest.positional = toDigits n.

Its grids of whole points are asked before those of fractions.  On the grid of ones the first point that
is asked is `n`.  On the grids of tens, hundreds and so on a point that reads back as `n` is `n`: whole
numbers up to `2 ^ 53` are their own roundings, from `2 ^ 53 + 2` on they round to more, and
`2 ^ 53 + 1` is no multiple of ten.  So there is never a fraction, and the zeros at the end are those
that the layout puts back.
-/

namespace PowerRule

/-! ### Digits -/

/-- Zeros behind a number are powers of ten. -/
theorem toDigits_mul_pow {n : Nat} (h : 0 < n) (zeros : Nat) :
    toDigits (n * 10 ^ zeros) = toDigits n ++ List.replicate zeros '0' := by
  induction zeros with
  | zero => simp
  | succ zeros ih =>
    have hpos : 0 < n * 10 ^ zeros := Nat.mul_pos h (Nat.pow_pos (by decide))
    have hshift : n * 10 ^ (zeros + 1) = 10 * (n * 10 ^ zeros) + 0 := by
      rw [Nat.pow_succ, Nat.add_zero, ← Nat.mul_assoc, Nat.mul_comm]
    calc toDigits (n * 10 ^ (zeros + 1))
        = Nat.toDigits 10 (10 * (n * 10 ^ zeros) + 0) := by rw [hshift, toDigits]
      _ = toDigits (n * 10 ^ zeros) ++ ['0'] :=
          (Nat.toDigits_append_toDigits (by decide) hpos (by decide)).symm
      _ = toDigits n ++ List.replicate (zeros + 1) '0' := by
          rw [ih, List.append_assoc, List.replicate_succ']

/-! ### Whole numbers are on the grid -/

theorem exists_unitsPerOne_eq : ∃ k : Nat, unitsPerOne = 2 ^ k :=
  ⟨1074, by decide +kernel⟩

theorem roundUnits_one_of_dvd {units : Nat} (h : spacing units ∣ units) : roundUnits units 1 = units := by
  have hround := roundUnits_of_dvd Nat.one_pos h
  rwa [Nat.mul_one] at hround

theorem whole_lt_unitLimit : 2 ^ (53 : Nat) * unitsPerOne < unitLimit := by decide +kernel

theorem spacing_dvd_whole {n : Nat} (h : n ≤ 2 ^ (53 : Nat)) :
    spacing (n * unitsPerOne) ∣ n * unitsPerOne := by
  obtain ⟨k, hk⟩ := exists_unitsPerOne_eq
  rw [hk]
  exact spacing_dvd_mul_two_pow_of_le h k

/-- From `2 ^ 53` to `2 ^ 54` every second whole number is on the grid. -/
theorem spacing_dvd_whole_double {n : Nat} (h : n < 2 ^ (53 : Nat)) :
    spacing (2 * n * unitsPerOne) ∣ 2 * n * unitsPerOne := by
  obtain ⟨k, hk⟩ := exists_unitsPerOne_eq
  have hshift : 2 * n * 2 ^ k = n * 2 ^ (k + 1) := by
    rw [Nat.pow_succ', Nat.mul_comm 2 n, Nat.mul_assoc]
  rw [hk, hshift]
  exact spacing_dvd_mul_two_pow h (k + 1)

namespace Magnitude

/-- A whole number. -/
def whole (n : Nat) (h : n ≤ 2 ^ (53 : Nat)) : Magnitude where
  units := n * unitsPerOne
  units_lt := Nat.lt_of_le_of_lt (Nat.mul_le_mul_right _ h) whole_lt_unitLimit
  spacing_dvd := spacing_dvd_whole h

variable {n : Nat} {h : n ≤ 2 ^ (53 : Nat)}

theorem isZero_whole_iff : (whole n h).isZero = true ↔ n = 0 := by
  have hone : unitsPerOne ≠ 0 := Nat.ne_of_gt unitsPerOne_pos
  show (n * unitsPerOne == 0) = true ↔ n = 0
  rw [beq_iff_eq, Nat.mul_eq_zero, or_iff_left hone]

/-- Whole numbers are not rounded. -/
theorem round?_whole_mul {den : Nat} (hden : 0 < den) :
    round? (n * unitsPerOne * den) den = some (whole n h) :=
  round?_units_mul (whole n h) hden

theorem round?_whole : round? (n * unitsPerOne) 1 = some (whole n h) := by
  have hround := round?_whole_mul (n := n) (h := h) Nat.one_pos
  rwa [Nat.mul_one] at hround

/-! ### The shortest digits of a whole number -/

/-- With a power of ten that is not negative a decimal is a whole number of ones. -/
theorem ofDecimal?_natCast (k zeros : Nat) :
    ofDecimal? ⟨k, zeros⟩ = round? (k * 10 ^ zeros * unitsPerOne) 1 := by
  have habove : (zeros : Int).toNat = zeros := Int.toNat_natCast zeros
  have hbelow : (-(zeros : Int)).toNat = 0 := by omega
  unfold ofDecimal?
  rw [habove, hbelow, Nat.pow_zero]

theorem isReadFrom_whole (n : Nat) (h : n ≤ 2 ^ (53 : Nat)) :
    (whole n h).IsReadFrom ⟨n, (0 : Nat)⟩ := by
  unfold IsReadFrom
  rw [ofDecimal?_natCast, Nat.pow_zero, Nat.mul_one, round?_whole]

/-- A multiple of ten that reads back as a whole number is this number. -/
theorem mul_pow_eq_of_isReadFrom {k zeros : Nat} (hzeros : 0 < zeros)
    (hread : (whole n h).IsReadFrom ⟨k, zeros⟩) : k * 10 ^ zeros = n := by
  unfold IsReadFrom at hread
  rw [ofDecimal?_natCast, round?_eq_some_iff] at hread
  have hten : 10 ∣ k * 10 ^ zeros := by
    obtain ⟨z, rfl⟩ := Nat.exists_eq_add_of_lt hzeros
    rw [Nat.zero_add, Nat.pow_succ, ← Nat.mul_assoc]
    exact Nat.dvd_mul_left _ _
  generalize k * 10 ^ zeros = p at hread hten ⊢
  by_cases hp : p ≤ 2 ^ (53 : Nat)
  · -- Both are their own roundings.
    rw [roundUnits_one_of_dvd (spacing_dvd_whole hp)] at hread
    exact Nat.eq_of_mul_eq_mul_right unitsPerOne_pos hread
  · -- The next multiple of ten rounds to more than `2 ^ 53`.
    have hnext : 2 * (2 ^ (52 : Nat) + 1) ≤ p := by omega
    have hmono := roundUnits_mono 1 (Nat.mul_le_mul_right unitsPerOne hnext)
    rw [roundUnits_one_of_dvd (spacing_dvd_whole_double (by decide)), hread] at hmono
    have hle : 2 * (2 ^ (52 : Nat) + 1) ≤ n := Nat.le_of_mul_le_mul_right hmono unitsPerOne_pos
    omega

theorem exists_of_mem_neighbours {m : Magnitude} {j : Nat} {d : Decimal} (hd : d ∈ m.neighbours j) :
    ∃ k, d = gridPoint j k := by
  unfold neighbours at hd
  dsimp only at hd
  split at hd
  · rcases List.mem_cons.1 hd with rfl | hd
    · exact ⟨_, rfl⟩
    · exact ⟨_, List.mem_singleton.1 hd⟩
  · rcases List.mem_cons.1 hd with rfl | hd
    · exact ⟨_, rfl⟩
    · exact ⟨_, List.mem_singleton.1 hd⟩

theorem finePlace_whole : (whole n h).finePlace = n * 10 ^ (1074 : Nat) := by
  rw [finePlace, whole, Nat.mul_assoc, Nat.mul_comm unitsPerOne, stepsPerUnit_mul_unitsPerOne]

theorem gridPoint_natCast (zeros k : Nat) : gridPoint (1074 + zeros) k = ⟨k, zeros⟩ := by
  unfold gridPoint
  congr 1
  omega

/-- A number on the grid is the first of its neighbours there. -/
theorem neighbours_of_finePlace_eq {m : Magnitude} {j k : Nat} (hm : m.finePlace = k * 10 ^ j) :
    m.neighbours j = [gridPoint j k, gridPoint j (k + 1)] := by
  have hpos : 0 < 10 ^ j := Nat.pow_pos (by decide)
  unfold neighbours
  simp only [hm, Nat.mul_div_cancel k hpos, Nat.mul_mod_left, Nat.mul_zero, hpos, if_true]

/-- On the grid of ones the number itself is asked first. -/
theorem find?_neighbours_whole :
    ((whole n h).neighbours 1074).find? ((whole n h).IsReadFrom ·) = some ⟨n, (0 : Nat)⟩ := by
  have hpoint : gridPoint 1074 n = ⟨n, (0 : Nat)⟩ := gridPoint_natCast 0 n
  rw [neighbours_of_finePlace_eq finePlace_whole, hpoint]
  apply List.find?_cons_of_pos
  exact decide_eq_true (isReadFrom_whole n h)

/-- From the grid of ones upwards the search finds the number. -/
theorem exists_shortestFrom_eq (i : Nat) :
    ∃ k zeros : Nat, (whole n h).shortestFrom (1074 + i) = ⟨k, zeros⟩ ∧ k * 10 ^ zeros = n := by
  induction i with
  | zero =>
    refine ⟨n, 0, ?_, by rw [Nat.pow_zero, Nat.mul_one]⟩
    show (whole n h).shortestFrom (1073 + 1) = _
    rw [shortestFrom, find?_neighbours_whole]
    rfl
  | succ i ih =>
    show ∃ k zeros : Nat, (whole n h).shortestFrom (1074 + i + 1) = _ ∧ _
    rw [shortestFrom]
    cases hfind : ((whole n h).neighbours (1074 + i + 1)).find? ((whole n h).IsReadFrom ·) with
    | none => exact ih
    | some d =>
      obtain ⟨k, rfl⟩ := exists_of_mem_neighbours (List.mem_of_find?_eq_some hfind)
      have hpoint : gridPoint (1074 + i + 1) k = ⟨k, ((i + 1 : Nat) : Int)⟩ :=
        gridPoint_natCast (i + 1) k
      have hread := List.find?_some hfind
      rw [hpoint] at hread
      exact ⟨k, i + 1, hpoint,
        mul_pow_eq_of_isReadFrom (Nat.succ_pos i) (of_decide_eq_true hread)⟩

/-- The search starts no lower than on the grid of ones. -/
theorem le_coarsestGrid_whole (hn : 0 < n) : 1074 ≤ (whole n h).coarsestGrid := by
  have hpow : 2 ^ (3567 : Nat) ≤ 10 ^ (1074 : Nat) := by decide +kernel
  have hle : 10 ^ (1074 : Nat) ≤ (whole n h).finePlace := by
    rw [finePlace_whole]
    exact Nat.le_mul_of_pos_left _ hn
  have hlog : 3567 ≤ (whole n h).finePlace.log2 := by
    refine (Nat.le_log2 ?_).2 (Nat.le_trans hpow hle)
    exact Nat.ne_of_gt (Nat.lt_of_lt_of_le (Nat.pow_pos (by decide)) hle)
  unfold coarsestGrid
  omega

/-- **A whole number is written with its own digits.** -/
theorem positional_shortest_whole (n : Nat) (h : n ≤ 2 ^ (53 : Nat)) :
    (whole n h).shortest.positional = toDigits n := by
  by_cases hn : n = 0
  · subst hn
    rw [shortest, if_pos (isZero_whole_iff.2 rfl)]
    rfl
  · have hpos : 0 < n := Nat.pos_of_ne_zero hn
    obtain ⟨i, hi⟩ := Nat.exists_eq_add_of_le (le_coarsestGrid_whole (h := h) hpos)
    obtain ⟨k, zeros, hshortest, hvalue⟩ := exists_shortestFrom_eq (n := n) (h := h) i
    have hk : 0 < k := by
      apply Nat.pos_of_ne_zero
      rintro rfl
      omega
    rw [shortest, if_neg (mt isZero_whole_iff.1 hn), hi, hshortest]
    show toDigits k ++ List.replicate zeros '0' = _
    rw [← toDigits_mul_pow hk, hvalue]

end Magnitude

end PowerRule
