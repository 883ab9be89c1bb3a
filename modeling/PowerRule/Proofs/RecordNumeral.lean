import PowerRule.Proofs.Grammar
import PowerRule.Proofs.Records
import PowerRule.Proofs.ShortestNumeral

/-!
The numerals of records.

A record writes the same shortest digits as a polynomial does, in one of two layouts: in their places,
with a digit behind the point, or one digit before the point and a power of ten.  `RecordNumeral` holds
both as data, with the number that is written:

    recordChars of a finite coefficient  =  its sign ++ r.chars      r.value = m.shortest.value

The layout is decided by the size: in their places stand zero and what is in `[10 ^ -4, 10 ^ 16)`.  The
lower bound is no number of the format; as the magnitude next to it is above it, rounding the bound
changes nothing (`isPlain_iff_rounded`).

A numeral has no comma, and an offset has no blank.  So the line of a token can be cut at its first comma
and at its last blank, and the parts give back the token and the offset (`Record.line_token_injective`).

Main statement: `Record.line_faithful`.
-/

namespace PowerRule

/-! ### Numerals as data -/

/-- One digit that is not zero, perhaps others behind a point, and a power of ten without zeros before
its digits. -/
@[ext] structure Scientific where
  first : Char
  isDigit : first.isDigit = true
  ne_zero : first ≠ '0'
  fraction : Option Digits
  exponent : IntegerLiteral
  unpadded : exponent.digits.chars.head? = some '0' → exponent.chars = ['0']

/-- How a record writes a number without a sign. -/
inductive RecordNumeral where
  /-- Digits in their places, on both sides of the point. -/
  | pointed (whole fraction : Digits)
  | scientific (n : Scientific)

theorem IntegerLiteral.isDigit_or_mem (n : IntegerLiteral) :
    ∀ c ∈ n.chars, c.isDigit = true ∨ c ∈ ['-'] := by
  obtain ⟨negative, digits⟩ := n
  cases negative with
  | false => exact fun c hc => .inl (digits.isDigit c hc)
  | true =>
    intro c hc
    rcases List.mem_cons.1 hc with rfl | hmem
    · exact .inr List.mem_cons_self
    · exact .inl (digits.isDigit c hmem)

theorem Literal.isDigit_or_mem (l : Literal) : ∀ c ∈ l.chars, c.isDigit = true ∨ c ∈ ['.'] :=
  fun _ hc => (l.isDigit_or_point_of_mem hc).imp_right List.mem_singleton.2

namespace Scientific

/-- The digits before the power of ten. -/
def mantissa (n : Scientific) : Literal :=
  ⟨⟨[n.first], List.cons_ne_nil _ _, by simpa using n.isDigit⟩, n.fraction⟩

def chars (n : Scientific) : List Char := n.mantissa.chars ++ 'e' :: n.exponent.chars

/-- The number that is written. -/
def value (n : Scientific) : ℚ := n.mantissa.value * 10 ^ n.exponent.value

end Scientific

theorem not_mem_of_isDigit_or_mem {text marks : List Char}
    (h : ∀ c ∈ text, c.isDigit = true ∨ c ∈ marks) {c : Char} (hdigit : c.isDigit = false)
    (hmark : c ∉ marks) : c ∉ text := by
  intro hc
  rcases h c hc with hisDigit | hmem
  · rw [hisDigit] at hdigit
    cases hdigit
  · exact hmark hmem

theorem Literal.chars_injective {l l' : Literal} (h : l.chars = l'.chars) : l = l' := by
  have happend : l.chars ++ [] = l'.chars ++ [] := by rw [h]
  exact (Literal.chars_append_inj Seam.nil.endsLiteral Seam.nil.endsLiteral happend).1

theorem IntegerLiteral.chars_injective {n n' : IntegerLiteral} (h : n.chars = n'.chars) : n = n' := by
  have happend : n.chars ++ [] = n'.chars ++ [] := by rw [h]
  exact (IntegerLiteral.chars_append_inj Seam.nil.noDigitAhead Seam.nil.noDigitAhead happend).1

/-- The `e` is the only one. -/
theorem Scientific.chars_injective {n n' : Scientific} (h : n.chars = n'.chars) : n = n' := by
  have hmantissa : 'e' ∉ n.mantissa.chars :=
    not_mem_of_isDigit_or_mem n.mantissa.isDigit_or_mem rfl (by decide)
  have hexponent : 'e' ∉ n.exponent.chars :=
    not_mem_of_isDigit_or_mem n.exponent.isDigit_or_mem rfl (by decide)
  obtain ⟨hfront, _, hpower⟩ := (List.append_cons_inj_of_notMem hmantissa hexponent).1 h
  have hliteral := Literal.chars_injective hfront
  have hwhole := congrArg (fun l : Literal => l.whole.chars) hliteral
  exact Scientific.ext (List.cons.inj hwhole).1 (congrArg Literal.fraction hliteral)
    (IntegerLiteral.chars_injective hpower)

namespace RecordNumeral

/-- Whether the digits stand in their places. -/
def IsPointed : RecordNumeral → Prop
  | pointed _ _ => True
  | scientific _ => False

def chars : RecordNumeral → List Char
  | pointed whole fraction => (⟨whole, some fraction⟩ : Literal).chars
  | scientific n => n.chars

/-- The number that is written. -/
def value : RecordNumeral → ℚ
  | pointed whole fraction => (⟨whole, some fraction⟩ : Literal).value
  | scientific n => n.value

theorem exists_cons (r : RecordNumeral) : ∃ c tail, r.chars = c :: tail ∧ c.isDigit = true := by
  cases r with
  | pointed whole fraction => exact (⟨whole, some fraction⟩ : Literal).exists_cons
  | scientific n => exact ⟨n.first, _, rfl, n.isDigit⟩

/-- A numeral has no other characters. -/
theorem isDigit_or_mem (r : RecordNumeral) :
    ∀ c ∈ r.chars, c.isDigit = true ∨ c ∈ ['.', 'e', '-'] := by
  have hliteral : ∀ l : Literal, ∀ c ∈ l.chars, c.isDigit = true ∨ c ∈ ['.', 'e', '-'] :=
    fun l c hc => (l.isDigit_or_mem c hc).imp_right fun hmem => List.mem_append_left _ hmem
  cases r with
  | pointed whole fraction => exact hliteral _
  | scientific n =>
    refine List.forall_mem_append.2 ⟨hliteral n.mantissa, ?_⟩
    refine List.forall_mem_cons.2 ⟨.inr (by simp), fun c hc => ?_⟩
    exact (n.exponent.isDigit_or_mem c hc).imp_right fun hmem => List.mem_append_right ['.', 'e'] hmem

/-- There is an `e` in one layout and none in the other. -/
theorem chars_pointed_ne (whole fraction : Digits) (n : Scientific) :
    (pointed whole fraction).chars ≠ (scientific n).chars := by
  intro h
  have hmem : 'e' ∈ (scientific n).chars := List.mem_append_right _ List.mem_cons_self
  rw [← h] at hmem
  exact not_mem_of_isDigit_or_mem (Literal.isDigit_or_mem _) rfl (by decide) hmem

/-- **A numeral can be read in one way only.** -/
theorem chars_injective {r r' : RecordNumeral} (h : r.chars = r'.chars) : r = r' := by
  cases r with
  | pointed whole fraction =>
    cases r' with
    | pointed whole' fraction' =>
      cases Literal.chars_injective h
      rfl
    | scientific n => exact absurd h (chars_pointed_ne whole fraction n)
  | scientific n =>
    cases r' with
    | pointed whole fraction => exact absurd h.symm (chars_pointed_ne whole fraction n)
    | scientific n' => exact congrArg scientific (Scientific.chars_injective h)

end RecordNumeral

/-! ### Both layouts write the number -/

/-- The digits of a number, without leading zeros. -/
def Digits.ofNat (n : Nat) : Digits :=
  ⟨toDigits n, toDigits_ne_nil n, fun _ => isDigit_of_mem_toDigits⟩

namespace IntegerLiteral

/-- An integer as it is written. -/
def ofInt (n : Int) : IntegerLiteral := ⟨decide (n < 0), .ofNat n.natAbs⟩

theorem chars_ofInt (n : Int) : (ofInt n).chars = Integer.chars n := by
  simp [ofInt, chars, Integer.chars, Digits.ofNat]

theorem value_ofInt (n : Int) : (ofInt n).value = n := by
  simp only [ofInt, value, Digits.ofNat, ofDigits_toDigits, decide_eq_true_eq]
  split
  all_goals omega

/-- Only the digits of zero start with a zero. -/
theorem unpadded_ofInt {n : Int} (h : (ofInt n).digits.chars.head? = some '0') :
    (ofInt n).chars = ['0'] := by
  have hzero : n = 0 := by
    by_contra hne
    exact head?_toDigits_ne (Int.natAbs_pos.2 hne) h
  rw [chars_ofInt, hzero]
  rfl

end IntegerLiteral

/-- The digits and the power of ten of the whole numeral. -/
theorem Scientific.value_eq (n : Scientific) :
    n.value = ofDigits (n.first :: n.mantissa.fractionChars)
      * 10 ^ (n.exponent.value - n.mantissa.fractionChars.length) := by
  have hten : (10 : ℚ) ^ (n.exponent.value - n.mantissa.fractionChars.length)
      = 10 ^ n.exponent.value / 10 ^ n.mantissa.fractionChars.length := by
    rw [zpow_sub₀ (by norm_num), zpow_natCast]
  have hdigits : ofDigits (n.first :: n.mantissa.fractionChars)
      = ofDigits n.mantissa.whole.chars * 10 ^ n.mantissa.fractionChars.length
        + ofDigits n.mantissa.fractionChars := ofDigits_append [n.first] _
  rw [value, Literal.value, hten, hdigits]
  push_cast
  field_simp

/-- A fraction of these digits, and none if there are none. -/
theorem exists_fraction {others : List Char} (h : ∀ c ∈ others, c.isDigit = true) :
    ∃ fraction : Option Digits, fraction.elim [] Digits.chars = others ∧
      fraction.elim [] (fun f => '.' :: f.chars) = if others = [] then [] else '.' :: others := by
  by_cases hne : others = []
  · exact ⟨none, hne.symm, by rw [if_pos hne]; rfl⟩
  · exact ⟨some ⟨others, hne, h⟩, rfl, by rw [if_neg hne]; rfl⟩

namespace Decimal

theorem exists_pointed (d : Decimal) : ∃ whole fraction : Digits,
    (⟨whole, some fraction⟩ : Literal).chars = d.pointed ∧
      (⟨whole, some fraction⟩ : Literal).value = d.value := by
  obtain ⟨n, e⟩ := d
  cases e with
  | ofNat zeros =>
    have hdigit : ∀ c ∈ toDigits n ++ List.replicate zeros '0', c.isDigit = true :=
      List.forall_mem_append.2 ⟨fun _ => isDigit_of_mem_toDigits, fun _ => isDigit_of_mem_zeros⟩
    refine ⟨⟨_, by simp, hdigit⟩, ⟨['0'], by simp, by simp⟩, ?_, ?_⟩
    · simp [Literal.chars, pointed, positional]
    · have hzero : ofDigits ['0'] = 0 := rfl
      simp [Literal.value, Literal.fractionChars, ofDigits_append_zeros, value, hzero]
  | negSucc k =>
    obtain ⟨l, hchars, _⟩ := exists_literal ⟨n, .negSucc k⟩
    have hvalue := l.value_of_chars_eq hchars
    have hpointed : (⟨n, .negSucc k⟩ : Decimal).pointed = l.chars := by
      rw [hchars, pointed, if_pos (Int.negSucc_lt_zero k)]
    obtain ⟨whole, fraction⟩ := l
    cases fraction with
    | some f => exact ⟨whole, f, hpointed.symm, hvalue⟩
    | none =>
      -- There is a point in the layout, so there is a fraction.
      have hmem : '.' ∈ whole.chars := by
        have hpoint : '.' ∈ (⟨whole, none⟩ : Literal).chars := by
          rw [hchars]
          exact List.mem_append_right _ List.mem_cons_self
        simpa [Literal.chars] using hpoint
      cases whole.isDigit _ hmem

theorem exists_scientific {d : Decimal} (hpos : 0 < d.significand) :
    ∃ n : Scientific, n.chars = d.scientific ∧ n.value = d.value := by
  have hdigit : ∀ c ∈ toDigits d.significand, c.isDigit = true := fun _ => isDigit_of_mem_toDigits
  have hhead := head?_toDigits_ne hpos
  cases hdigits : toDigits d.significand with
  | nil => exact absurd hdigits (toDigits_ne_nil _)
  | cons first others =>
    rw [hdigits] at hdigit hhead
    obtain ⟨hfirst, hothers⟩ := List.forall_mem_cons.1 hdigit
    obtain ⟨fraction, hbehind, hpointed⟩ := exists_fraction hothers
    have hne : first ≠ '0' := fun heq => hhead (congrArg some heq)
    let power := IntegerLiteral.ofInt (d.exponent + others.length)
    refine ⟨⟨first, hfirst, hne, fraction, power, IntegerLiteral.unpadded_ofInt⟩, ?_, ?_⟩
    · simp [Scientific.chars, Scientific.mantissa, Literal.chars, scientific, hdigits, hpointed,
        power, IntegerLiteral.chars_ofInt]
    · rw [Scientific.value_eq]
      simp only [Scientific.mantissa, Literal.fractionChars, hbehind, power,
        IntegerLiteral.value_ofInt, add_sub_cancel_right]
      rw [← hdigits, ofDigits_toDigits, value]

end Decimal

/-! ### Which layout -/

namespace Magnitude

variable {m low high : Magnitude}

theorem ten_pow_le_finePlace_iff {k : Nat} {e : ℤ} (h : e + 1074 = k) :
    10 ^ k ≤ m.finePlace ↔ (10 : ℚ) ^ e ≤ m.value := by
  rw [value_eq_finePlace, ten_zpow_eq, h, zpow_natCast, mul_le_mul_iff_of_pos_right fineStep_pos]
  exact_mod_cast Iff.rfl

theorem isZero_iff_value : m.isZero = true ↔ m.value = 0 := by
  rw [isZero_iff]
  constructor
  · rintro rfl
    exact value_zero
  · intro h
    exact value_injective (h.trans value_zero.symm)

/-- Digits stand in their places from `10 ^ -4` on and below `10 ^ 16`. -/
theorem isPlain_iff : m.isPlain = true ↔
    m.value = 0 ∨ (10 : ℚ) ^ (-4 : ℤ) ≤ m.value ∧ m.value < 10 ^ (16 : ℤ) := by
  have hlow := ten_pow_le_finePlace_iff (m := m) (k := 1074 - 4) (e := -4) (by norm_num)
  have hhigh := ten_pow_le_finePlace_iff (m := m) (k := 1074 + 16) (e := 16) (by norm_num)
  rw [← isZero_iff_value, isPlain, Bool.or_eq_true, Bool.and_eq_true, decide_eq_true_eq,
    decide_eq_true_eq, hlow, ← not_le, hhigh, not_le]

/-- A bound below the magnitude next to it can be rounded. -/
theorem IsNearest.le_value_iff {v : ℚ} (h : low.IsNearest v) (hv : v ≤ low.value) :
    v ≤ m.value ↔ low.value ≤ m.value := by
  constructor
  · intro hle
    by_contra hlt
    have hnear := h.nearest m
    rw [abs_of_nonpos (by linarith), abs_of_nonpos (by linarith)] at hnear
    linarith
  · exact hv.trans

/-- The magnitude next to `10 ^ -4`, and above it. -/
def plainStart : Magnitude :=
  ⟨7378697629483821 * 2 ^ (1008 : Nat), by decide +kernel, by decide +kernel⟩

/-- The magnitude of `10 ^ 16`. -/
def plainEnd : Magnitude :=
  ⟨10 ^ (16 : Nat) * 2 ^ (1074 : Nat), by decide +kernel, by decide +kernel⟩

theorem isReadFrom_plainStart : plainStart.IsReadFrom ⟨1, -4⟩ := by decide +kernel

theorem isReadFrom_plainEnd : plainEnd.IsReadFrom ⟨1, 16⟩ := by decide +kernel

/-- **Both bounds can be rounded to the format.** -/
theorem isPlain_iff_rounded (hlow : low.IsReadFrom ⟨1, -4⟩) (hhigh : high.IsReadFrom ⟨1, 16⟩) :
    m.isPlain = true ↔ m.value = 0 ∨ low.value ≤ m.value ∧ m.value < high.value := by
  obtain rfl : low = plainStart := Option.some.inj (hlow.symm.trans isReadFrom_plainStart)
  obtain rfl : high = plainEnd := Option.some.inj (hhigh.symm.trans isReadFrom_plainEnd)
  have hone : ∀ e : ℤ, (⟨1, e⟩ : Decimal).value = 10 ^ e := by simp [Decimal.value]
  have hstart : (10 : ℚ) ^ (-4 : ℤ) ≤ plainStart.value :=
    (ten_pow_le_finePlace_iff (k := 1074 - 4) (by norm_num)).1 (by decide +kernel)
  have hend : (10 : ℚ) ^ (16 : ℤ) ≤ plainEnd.value :=
    (ten_pow_le_finePlace_iff (k := 1074 + 16) (by norm_num)).1 (by decide +kernel)
  have hnearstart := (isReadFrom_iff.1 hlow).isNearest
  have hnearend := (isReadFrom_iff.1 hhigh).isNearest
  rw [hone] at hnearstart hnearend
  rw [isPlain_iff, hnearstart.le_value_iff hstart, ← not_le, hnearend.le_value_iff hend, not_le]

end Magnitude

/-! ### The numeral of a coefficient -/

namespace Coefficient

/-- **A record writes the shortest decimal**, in the layout that its size asks for. -/
theorem exists_recordNumeral (s : Sign) (m : Magnitude) : ∃ r : RecordNumeral,
    (finite s m).recordChars = s.mark ++ r.chars ∧ r.value = m.shortest.value ∧
      (r.IsPointed ↔ m.isPlain = true) := by
  cases hplain : m.isPlain with
  | true =>
    obtain ⟨whole, fraction, hchars, hvalue⟩ := m.shortest.exists_pointed
    refine ⟨.pointed whole fraction, ?_, hvalue, iff_of_true trivial rfl⟩
    rw [recordChars, if_pos hplain, ← hchars]
    rfl
  | false =>
    -- What is not in its places is not zero.
    have hm : m.isZero = false := (Bool.or_eq_false_iff.1 hplain).1
    have hpos := Magnitude.significand_pos hm (Magnitude.ofDecimal?_shortest m)
    obtain ⟨n, hchars, hvalue⟩ := Decimal.exists_scientific hpos
    refine ⟨.scientific n, ?_, hvalue, iff_of_false id nofun⟩
    rw [recordChars, if_neg (Bool.eq_false_iff.1 hplain), ← hchars]
    rfl

theorem isDigit_or_mem_recordChars (s : Sign) (m : Magnitude) :
    ∀ c ∈ (finite s m).recordChars, c.isDigit = true ∨ c ∈ ['.', 'e', '-'] := by
  obtain ⟨r, hchars, _⟩ := exists_recordNumeral s m
  have hmark : ∀ c ∈ s.mark, c.isDigit = true ∨ c ∈ ['.', 'e', '-'] := by
    cases s <;> simp [Sign.mark, Sign.lexeme]
  rw [hchars]
  exact List.forall_mem_append.2 ⟨hmark, r.isDigit_or_mem⟩

theorem not_mem_recordChars_finite {c : Char} (hdigit : c.isDigit = false)
    (hmark : c ∉ ['.', 'e', '-']) (s : Sign) (m : Magnitude) : c ∉ (finite s m).recordChars :=
  not_mem_of_isDigit_or_mem (isDigit_or_mem_recordChars s m) hdigit hmark

theorem comma_not_mem_recordChars (c : Coefficient) : ',' ∉ c.recordChars := by
  cases c with
  | finite s m => exact not_mem_recordChars_finite rfl (by decide) s m
  | infinite s => cases s <;> decide
  | nan => decide

/-- The sign and the digits of a finite coefficient come back from its numeral. -/
theorem recordChars_finite_injective {s s' : Sign} {m m' : Magnitude}
    (h : (finite s m).recordChars = (finite s' m').recordChars) : finite s m = finite s' m' := by
  obtain ⟨r, hchars, hvalue, _⟩ := exists_recordNumeral s m
  obtain ⟨r', hchars', hvalue', _⟩ := exists_recordNumeral s' m'
  have hminus : ∀ (q : RecordNumeral) (text : List Char), q.chars ≠ '-' :: text := by
    intro q text heq
    obtain ⟨c, tail, hcons, hdigit⟩ := q.exists_cons
    rw [hcons] at heq
    cases heq
    cases hdigit
  rw [hchars, hchars'] at h
  have hparts : s = s' ∧ r.chars = r'.chars := by
    cases s with
    | plus =>
      cases s' with
      | plus => exact ⟨rfl, h⟩
      | minus => exact absurd h (hminus _ _)
    | minus =>
      cases s' with
      | plus => exact absurd h.symm (hminus _ _)
      | minus => exact ⟨rfl, (List.cons.inj h).2⟩
  obtain ⟨rfl, hnumeral⟩ := hparts
  rw [RecordNumeral.chars_injective hnumeral, hvalue'] at hvalue
  -- Equal values are read alike, and each magnitude is read back from its shortest decimal.
  have hread : m.IsReadFrom m'.shortest :=
    (Magnitude.isReadFrom_congr hvalue.symm).1 (Magnitude.ofDecimal?_shortest m)
  have hm : m' = m := Option.some.inj ((Magnitude.ofDecimal?_shortest m').symm.trans hread)
  rw [hm]

/-- **Different coefficients have different numerals in records.** -/
theorem recordChars_injective {c c' : Coefficient} (h : c.recordChars = c'.recordChars) : c = c' := by
  have hi : ∀ s m, 'i' ∉ (finite s m).recordChars :=
    fun s m => not_mem_recordChars_finite rfl (by decide) s m
  have hn : ∀ s m, 'N' ∉ (finite s m).recordChars :=
    fun s m => not_mem_recordChars_finite rfl (by decide) s m
  have hinfinite : ∀ s, 'i' ∈ (infinite s).recordChars := by
    intro s
    cases s <;> decide
  have hnan : 'N' ∈ nan.recordChars := by decide
  match c, c' with
  | finite s m, finite s' m' => exact recordChars_finite_injective h
  | finite s m, infinite s' => exact absurd (h ▸ hinfinite s') (hi s m)
  | finite s m, nan => exact absurd (h ▸ hnan) (hn s m)
  | infinite s, finite s' m' => exact absurd (h ▸ hinfinite s) (hi s' m')
  | infinite .plus, infinite .plus => rfl
  | infinite .plus, infinite .minus => cases h
  | infinite .minus, infinite .plus => cases h
  | infinite .minus, infinite .minus => rfl
  | infinite s, nan => cases s <;> cases h
  | nan, finite s' m' => exact absurd (h ▸ hnan) (hn s' m')
  | nan, infinite s' => cases s' <;> cases h
  | nan, nan => rfl

end Coefficient

theorem Exponent.chars_injective {e e' : Exponent} (h : e.chars = e'.chars) : e = e' := by
  rw [chars, chars, ← IntegerLiteral.chars_ofInt, ← IntegerLiteral.chars_ofInt] at h
  have hvalue := congrArg IntegerLiteral.value (IntegerLiteral.chars_injective h)
  rw [IntegerLiteral.value_ofInt, IntegerLiteral.value_ofInt] at hvalue
  exact Exponent.ext hvalue

theorem Exponent.comma_not_mem_chars (e : Exponent) : ',' ∉ e.chars := by
  rw [chars, ← IntegerLiteral.chars_ofInt]
  exact not_mem_of_isDigit_or_mem (IntegerLiteral.isDigit_or_mem _) rfl (by decide)

/-! ### Lines are told apart -/

theorem Sign.recordName_injective {s r : Sign} (h : s.recordName = r.recordName) : s = r := by
  cases s <;> cases r
  · rfl
  · exact absurd h (by decide)
  · exact absurd h (by decide)
  · rfl

theorem Token.recordText_term (t : Term) : (term t).recordText
    = "Term(Term \x7b coefficient: " ++ .ofList t.coefficient.recordChars
      ++ ", exponent: " ++ .ofList t.exponent.chars ++ " \x7d)" := rfl

theorem Token.recordText_operator (s : Sign) :
    (operator s).recordText = "Operator(" ++ s.recordName ++ ")" := rfl

theorem Token.recordText_term_injective {t u : Term}
    (h : (term t).recordText = (term u).recordText) : t = u := by
  rw [recordText_term, recordText_term] at h
  have hlist := congrArg String.toList ((String.append_left_inj _).1 h)
  simp only [String.toList_append, String.toList_ofList, List.append_assoc] at hlist
  have hparts := List.append_cancel_left hlist
  -- The first comma stands behind the numeral, and there is no other one.
  have hfirst : ", exponent: ".toList = ',' :: " exponent: ".toList := by simp
  have hcomma : ',' ∉ " exponent: ".toList ++ t.exponent.chars := by
    simp [t.exponent.comma_not_mem_chars]
  rw [hfirst, List.cons_append, List.cons_append] at hparts
  obtain ⟨hcoefficient, _, hpower⟩ := (List.append_cons_inj_of_notMem
    t.coefficient.comma_not_mem_recordChars hcomma).1 hparts
  have hexponent := List.append_cancel_left hpower
  exact Term.ext (Coefficient.recordChars_injective hcoefficient)
    (Exponent.chars_injective hexponent)

theorem Token.recordText_term_ne_operator (t : Term) (s : Sign) :
    (term t).recordText ≠ (operator s).recordText := by
  intro h
  rw [recordText_term, recordText_operator] at h
  have hfirst := congrArg (fun text : String => text.toList.head?) h
  simp at hfirst

/-- **Different tokens have different texts in records.** -/
theorem Token.recordText_injective {t u : Token} (h : t.recordText = u.recordText) : t = u := by
  cases t with
  | term t =>
    cases u with
    | term u => rw [recordText_term_injective h]
    | operator s => exact absurd h (recordText_term_ne_operator t s)
  | operator s =>
    cases u with
    | term u => exact absurd h.symm (recordText_term_ne_operator u s)
    | operator r =>
      rw [recordText_operator, recordText_operator] at h
      have hname := (String.append_right_inj _).1 ((String.append_left_inj _).1 h)
      rw [Sign.recordName_injective hname]

def Digits.reverse (d : Digits) : Digits :=
  ⟨d.chars.reverse, by simpa using d.ne_nil, fun c hc => d.isDigit c (List.mem_reverse.1 hc)⟩

/-- The last blank of a line stands before the offset. -/
theorem numeral_append_inj {text text' : List Char} {n n' : Nat}
    (h : text ++ ' ' :: toDigits n = text' ++ ' ' :: toDigits n') : text = text' ∧ n = n' := by
  have hblank : ∀ rest : List Char, NoDigitAhead (' ' :: rest) := by
    intro rest c hc
    cases hc
    rfl
  have hreverse : (Digits.ofNat n).reverse.chars ++ ' ' :: text.reverse
      = (Digits.ofNat n').reverse.chars ++ ' ' :: text'.reverse := by
    simpa [Digits.ofNat, Digits.reverse] using congrArg List.reverse h
  obtain ⟨hdigits, htext⟩ := Digits.chars_append_inj (hblank _) (hblank _) hreverse
  have hdigits : toDigits n = toDigits n' :=
    List.reverse_injective (congrArg Digits.chars hdigits)
  refine ⟨List.reverse_injective (List.cons.inj htext).2, ?_⟩
  rw [← ofDigits_toDigits n, hdigits, ofDigits_toDigits]

/-- The line of a term with these numerals. -/
def termLine (coefficient exponent : List Char) (start : Nat) : String :=
  logLine "TRACE" "polydiff::lexer"
    ("token " ++ ("Term(Term \x7b coefficient: " ++ .ofList coefficient
      ++ ", exponent: " ++ .ofList exponent ++ " \x7d)") ++ " at " ++ toString start)

namespace Record

theorem line_token (start : Nat) (t : Token) : (token start t).line
    = logLine "TRACE" "polydiff::lexer" ("token " ++ t.recordText ++ " at " ++ toString start) :=
  line_ofItem_item ⟨start, t⟩

theorem line_token_term (start : Nat) (t : Term) : (token start (.term t)).line
    = termLine t.coefficient.recordChars t.exponent.chars start :=
  line_token start (.term t)

/-- **Different tokens, or different offsets, leave different lines.** -/
theorem line_token_injective {start start' : Nat} {t t' : Token}
    (h : (token start t).line = (token start' t').line) : start = start' ∧ t = t' := by
  rw [line_token, line_token, logLine, logLine] at h
  have hlist := congrArg String.toList ((String.append_right_inj _).1 h)
  simp only [← numeral_eq, numeral, String.toList_append, String.toList_ofList,
    List.append_assoc] at hlist
  have hat : " at ".toList = [' ', 'a', 't', ' '] := by simp
  have hparts : (t.recordText.toList ++ [' ', 'a', 't']) ++ ' ' :: toDigits start
      = (t'.recordText.toList ++ [' ', 'a', 't']) ++ ' ' :: toDigits start' := by
    simpa [hat] using List.append_cancel_left hlist
  obtain ⟨htext, hstart⟩ := numeral_append_inj hparts
  have htoken := String.toList_inj.1 (List.append_cancel_right htext)
  exact ⟨hstart, Token.recordText_injective htoken⟩

end Record

/-! ### The tokens of a text -/

theorem TokenStream.exists_magnitude_of_mem_items {text : List Char} {start : Nat} {t : Term}
    (h : Item.token start (.term t) ∈ (ofChars text).items) :
    ∃ m, t.coefficient = .finite .plus m := by
  have hplaced : PlacedToken.mk start (.term t) ∈ (ofChars text).placedTokens :=
    List.mem_filterMap.2 ⟨_, h, rfl⟩
  obtain ⟨_, l, _, _, hvalue, _⟩ := standsIn_of_mem_placedTokens hplaced
  cases l with
  | operator s => cases hvalue
  | term f =>
    obtain ⟨u, hu, hterm⟩ := Option.map_eq_some_iff.1 hvalue
    cases hterm
    exact f.exists_magnitude_of_term? hu

/-- The term is written with the literal `l`, and its record with the numeral `r`; both write the same
number, which is read as `m`, and the layout of `r` is that of its size. -/
structure Term.HasNumerals (t : Term) (start : Nat) (m : Magnitude) (l : Literal)
    (r : RecordNumeral) : Prop where
  coefficient_eq : t.coefficient = .finite .plus m
  text_eq : t.text = .ofList (l.chars ++ powerChars t.exponent)
  line_eq : (Record.ofItem (.token start (.term t))).line = termLine r.chars t.exponent.chars start
  value_eq : r.value = l.value
  isReadAs : l.IsReadAs m
  isRoundingOf : m.IsRoundingOf r.value
  isPointed_iff : r.IsPointed ↔
    m.value = 0 ∨ (10 : ℚ) ^ (-4 : ℤ) ≤ m.value ∧ m.value < 10 ^ (16 : ℤ)
  /-- The bounds may be numbers of the format. -/
  isPointed_iff_rounded : ∀ low high : Magnitude, low.IsReadFrom ⟨1, -4⟩ → high.IsReadFrom ⟨1, 16⟩ →
    (r.IsPointed ↔ m.value = 0 ∨ low.value ≤ m.value ∧ m.value < high.value)

theorem Term.exists_hasNumerals (m : Magnitude) (e : Exponent) (start : Nat) :
    ∃ l r, (⟨.finite .plus m, e⟩ : Term).HasNumerals start m l r := by
  obtain ⟨l, hliteral, hdecimal⟩ := m.shortest.exists_literal
  obtain ⟨r, hnumeral, hvalue, hlayout⟩ := Coefficient.exists_recordNumeral .plus m
  have hread : m.IsReadFrom m.shortest := Magnitude.ofDecimal?_shortest m
  refine ⟨l, r, rfl, ?_, ?_, ?_, ?_, ?_, ?_, ?_⟩
  · rw [text, chars, Coefficient.chars_plus, hliteral]
  · rw [Record.ofItem, Record.line_token_term, hnumeral]
    rfl
  · rw [hvalue, l.value_of_chars_eq hliteral]
  · rw [Literal.isReadAs_iff, hdecimal, Magnitude.IsReadFrom, Magnitude.ofDecimal?_spelledOut]
    exact hread
  · rw [hvalue]
    exact Magnitude.isReadFrom_iff.1 hread
  · rw [hlayout, Magnitude.isPlain_iff]
  · intro low high hlow hhigh
    rw [hlayout, Magnitude.isPlain_iff_rounded hlow hhigh]

/-- **The lines of the tokens are faithful.**  Whatever term a text holds, its line has the number that
its own text has, in the layout of its size; and lines are equal for the same token at the same offset
only. -/
theorem Record.line_faithful :
    (∀ (text : String) (start : Nat) (t : Term),
      Item.token start (.term t) ∈ (TokenStream.ofChars text.toList).items →
        ∃ m l r, t.HasNumerals start m l r) ∧
    ∀ (start start' : Nat) (t t' : Token),
      (Record.ofItem (.token start t)).line = (Record.ofItem (.token start' t')).line →
        start = start' ∧ t = t' := by
  refine ⟨fun text start t h => ?_, fun start start' t t' h => line_token_injective h⟩
  obtain ⟨m, hm⟩ := TokenStream.exists_magnitude_of_mem_items h
  obtain ⟨c, e⟩ := t
  subst hm
  exact ⟨m, Term.exists_hasNumerals m e start⟩

/-- The least number that is not in its places any more. -/
theorem Record.line_faithful_plainEnd :
    Item.token 1 (.term ⟨.finite .plus .plainEnd, .one⟩)
      ∈ (TokenStream.ofChars "-10000000000000000x".toList).items ∧
    ∃ m l r, (⟨.finite .plus .plainEnd, .one⟩ : Term).HasNumerals 1 m l r := by
  have hmem : Item.token 1 (.term ⟨.finite .plus .plainEnd, .one⟩)
      ∈ (TokenStream.ofChars "-10000000000000000x".toList).items := by
    decide +kernel
  exact ⟨hmem, line_faithful.1 _ _ _ hmem⟩

example : (Record.ofItem (.token 1 (.term ⟨.finite .plus .plainEnd, .one⟩))).line
    = "TRACE polydiff::lexer: token Term(Term \x7b coefficient: 1e16, exponent: 1 \x7d) at 1" := by
  decide +kernel

end PowerRule
