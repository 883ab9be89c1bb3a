import Mathlib.Data.List.DropRight
import PowerRule.Proofs.Literals
import PowerRule.Proofs.RoundedProduct
import PowerRule.Proofs.ShortestDecimal
import PowerRule.Proofs.Written

/-!
The numeral of a finite coefficient.

A coefficient that is not zero is written as a literal behind its sign.  The literal has no zeros that
say nothing (`Literal.IsCanonical`), and it is the best of all literals that are read as the same
magnitude (`Literal.IsShortest`): none has fewer significant digits, and with as many none is nearer.

Significant digits are those from the first to the last one that is not zero.  Around them there are only
zeros, so a literal that is not zero is also a decimal whose significand has exactly these digits:

    value = k * 10 ^ e,   10 ^ c ≤ k < 10 ^ (c + 1),   ¬ 10 ∣ k,   with `c + 1` significant digits

In this form literals are compared as decimals (`IsCoarsest.digits_le`, `IsCoarsest.nearest_of_digits`).
The coarsest decimal of a magnitude is of this form itself, because a last digit zero would leave a
coarser one.

Main statement: `Term.exists_numeral`.
-/

namespace PowerRule

/-! ### The number of a run of digits -/

theorem ofDigits_replicate_append (zeros : Nat) (digits : List Char) :
    ofDigits (List.replicate zeros '0' ++ digits) = ofDigits digits := by
  rw [ofDigits, Nat.ofDigitChars_append, Nat.ofDigitChars_replicate_zero, Nat.mul_zero, ofDigits]

theorem ofDigits_append_replicate (digits : List Char) (zeros : Nat) :
    ofDigits (digits ++ List.replicate zeros '0') = ofDigits digits * 10 ^ zeros := by
  rw [ofDigits, Nat.ofDigitChars_append, Nat.ofDigitChars_replicate_zero, Nat.mul_comm, ofDigits]

/-- One digit. -/
theorem ofDigits_singleton {c : Char} (h : c.isDigit = true) :
    ofDigits [c] < 10 ∧ (c ≠ '0' → 0 < ofDigits [c]) := by
  have hvalue : ofDigits [c] = c.toNat - '0'.toNat := by
    rw [ofDigits, Nat.ofDigitChars_cons, Nat.ofDigitChars_nil, Nat.mul_zero, Nat.zero_add]
  obtain ⟨hzero, hnine⟩ := Char.isDigit_iff_toNat.1 h
  have hbounds : '9'.toNat = '0'.toNat + 9 := rfl
  rw [hvalue]
  refine ⟨by omega, fun hne => ?_⟩
  have hne : c.toNat ≠ '0'.toNat := fun heq => hne (Char.toNat_inj.1 heq)
  omega

theorem ofDigits_lt {digits : List Char} (h : ∀ c ∈ digits, c.isDigit = true) :
    ofDigits digits < 10 ^ digits.length := by
  induction digits with
  | nil => exact Nat.one_pos
  | cons c tail ih =>
    obtain ⟨hc, htail⟩ := List.forall_mem_cons.1 h
    have hfirst := (ofDigits_singleton hc).1
    calc ofDigits (c :: tail) = ofDigits [c] * 10 ^ tail.length + ofDigits tail :=
          ofDigits_append [c] tail
      _ < (ofDigits [c] + 1) * 10 ^ tail.length := by
          rw [Nat.succ_mul]
          exact Nat.add_lt_add_left (ih htail) _
      _ ≤ 10 * 10 ^ tail.length := Nat.mul_le_mul_right _ hfirst
      _ = 10 ^ (tail.length + 1) := Nat.pow_succ'.symm

/-- The first digit counts. -/
theorem le_ofDigits_cons {c : Char} {tail : List Char} (hc : c.isDigit = true) (hne : c ≠ '0') :
    10 ^ tail.length ≤ ofDigits (c :: tail) := by
  have hfirst := (ofDigits_singleton hc).2 hne
  calc 10 ^ tail.length ≤ ofDigits [c] * 10 ^ tail.length := Nat.le_mul_of_pos_left _ hfirst
    _ ≤ ofDigits [c] * 10 ^ tail.length + ofDigits tail := Nat.le_add_right _ _
    _ = ofDigits (c :: tail) := (ofDigits_append [c] tail).symm

/-- So does the last. -/
theorem not_ten_dvd_ofDigits_concat {c : Char} {front : List Char} (hc : c.isDigit = true)
    (hne : c ≠ '0') : ¬ 10 ∣ ofDigits (front ++ [c]) := by
  obtain ⟨hlt, hpos⟩ := ofDigits_singleton hc
  have := hpos hne
  rw [ofDigits_append, List.length_singleton]
  omega

/-! ### Significant digits -/

/-- The digits from the first to the last one that is not zero. -/
def significant (digits : List Char) : List Char :=
  (digits.dropWhile (· == '0')).rdropWhile (· == '0')

theorem exists_eq_replicate {run : List Char} (h : ∀ c ∈ run, (c == '0') = true) :
    ∃ zeros, run = List.replicate zeros '0' :=
  ⟨_, List.eq_replicate_of_mem fun c hc => eq_of_beq (h c hc)⟩

/-- Around them are zeros. -/
theorem exists_eq_significant (digits : List Char) : ∃ before behind : Nat,
    digits = List.replicate before '0' ++ significant digits ++ List.replicate behind '0' := by
  let tail := digits.dropWhile (· == '0')
  obtain ⟨before, hbefore⟩ : ∃ zeros, digits.takeWhile (· == '0') = List.replicate zeros '0' :=
    exists_eq_replicate fun _ => List.mem_takeWhile_imp
  obtain ⟨behind, hbehind⟩ : ∃ zeros, tail.rtakeWhile (· == '0') = List.replicate zeros '0' :=
    exists_eq_replicate fun _ => List.mem_rtakeWhile_imp
  refine ⟨before, behind, ?_⟩
  calc digits = digits.takeWhile (· == '0') ++ tail := List.takeWhile_append_dropWhile.symm
    _ = digits.takeWhile (· == '0') ++ (significant digits ++ tail.rtakeWhile (· == '0')) :=
        congrArg _ List.rdropWhile_append_rtakeWhile.symm
    _ = _ := by rw [hbefore, hbehind, List.append_assoc]

theorem getLast_significant_ne {digits : List Char} (h : significant digits ≠ []) :
    (significant digits).getLast h ≠ '0' := by
  intro hlast
  exact List.rdropWhile_last_not _ _ h (beq_iff_eq.2 hlast)

theorem head?_significant_ne (digits : List Char) : (significant digits).head? ≠ some '0' := by
  intro hhead
  obtain ⟨rest, hrest⟩ := List.rdropWhile_prefix (· == '0') (digits.dropWhile (· == '0'))
  have hfirst := List.head?_dropWhile_not (· == '0') digits
  have htail : (digits.dropWhile (· == '0')).head? = some '0' := by
    rw [← hrest, List.head?_append]
    show (significant digits).head?.or _ = _
    rw [hhead, Option.some_or]
  rw [htail] at hfirst
  cases hfirst

/-- **The significant digits are those of a number that is no multiple of ten.** -/
theorem ofDigits_significant {digits : List Char} (h : ∀ c ∈ digits, c.isDigit = true)
    (hne : significant digits ≠ []) :
    ∃ c, (significant digits).length = c + 1 ∧ 10 ^ c ≤ ofDigits (significant digits) ∧
      ofDigits (significant digits) < 10 ^ (c + 1) ∧ ¬ 10 ∣ ofDigits (significant digits) := by
  obtain ⟨before, behind, hsplit⟩ := exists_eq_significant digits
  have hlast := getLast_significant_ne hne
  have hfirst := head?_significant_ne digits
  have hdigit : ∀ c ∈ significant digits, c.isDigit = true := by
    intro c hc
    apply h
    rw [hsplit]
    exact List.mem_append_left _ (List.mem_append_right _ hc)
  have hfront := List.dropLast_append_getLast hne
  generalize significant digits = core at *
  have hlt := ofDigits_lt hdigit
  have hten : ¬ 10 ∣ ofDigits core := by
    rw [← hfront]
    exact not_ten_dvd_ofDigits_concat (hdigit _ (List.getLast_mem hne)) hlast
  cases core with
  | nil => exact absurd rfl hne
  | cons c tail =>
    have hc : c ≠ '0' := fun heq => hfirst (congrArg some heq)
    exact ⟨tail.length, rfl, le_ofDigits_cons (hdigit c (.head tail)) hc, hlt, hten⟩

/-! ### Decimals of the same number -/

namespace Decimal

variable {d d' : Decimal}

theorem value_mul_pow (k zeros : Nat) (e : Int) :
    (⟨k * 10 ^ zeros, e⟩ : Decimal).value = (⟨k, e + zeros⟩ : Decimal).value := by
  rw [value, value, zpow_add₀ (by norm_num), zpow_natCast, Nat.cast_mul, Nat.cast_pow,
    Nat.cast_ofNat, mul_assoc, mul_comm (10 ^ zeros)]

theorem value_spelledOut (d : Decimal) : d.spelledOut.value = d.value := by
  obtain ⟨n, e⟩ := d
  cases e with
  | ofNat zeros =>
    show (⟨n * 10 ^ zeros, 0⟩ : Decimal).value = _
    rw [value_mul_pow, Int.zero_add]
    rfl
  | negSucc k => rfl

/-- A coarser decimal of the same number has fewer zeros at its end. -/
theorem significand_eq_of_value_eq (h : d.value = d'.value) {zeros : Nat}
    (he : d'.exponent = d.exponent + zeros) : d.significand = d'.significand * 10 ^ zeros := by
  have hpos : (0 : ℚ) < 10 ^ d.exponent := zpow_pos (by norm_num) _
  obtain ⟨k, e⟩ := d'
  obtain rfl : e = d.exponent + zeros := he
  rw [← value_mul_pow, value, value] at h
  exact_mod_cast mul_right_cancel₀ hpos.ne' h

end Decimal

namespace Magnitude.IsCoarsest

variable {m : Magnitude} {d d' : Decimal}

/-- A coarsest decimal has no zero at its end. -/
theorem not_ten_dvd (h : m.IsCoarsest d) : ¬ 10 ∣ d.significand := by
  rintro ⟨k, hk⟩
  have hvalue : (⟨k, d.exponent + (1 : Nat)⟩ : Decimal).value = d.value := by
    rw [← Decimal.value_mul_pow, Nat.pow_one, Nat.mul_comm, ← hk]
  have hle : d.exponent + (1 : Nat) ≤ d.exponent :=
    h.exponent_le _ ((isReadFrom_congr hvalue).2 h.isReadFrom)
  omega

/-- A decimal of the same number is on the same grid, if it has no zero at its end either. -/
theorem of_value_eq (h : m.IsCoarsest d) (hvalue : d'.value = d.value)
    (hten : ¬ 10 ∣ d'.significand) : m.IsCoarsest d' := by
  have hread := (isReadFrom_congr hvalue).2 h.isReadFrom
  obtain ⟨zeros, hzeros⟩ := Int.le.dest (h.exponent_le d' hread)
  have hsignificand := Decimal.significand_eq_of_value_eq hvalue hzeros.symm
  cases zeros with
  | zero =>
    rw [Int.natCast_zero, Int.add_zero] at hzeros
    refine ⟨hread, fun d'' h'' => ?_, fun d'' h'' he => ?_⟩
    · rw [hzeros]
      exact h.exponent_le d'' h''
    · rw [hvalue]
      exact h.nearest d'' h'' (he.trans hzeros)
  | succ zeros =>
    rw [Nat.pow_succ, ← Nat.mul_assoc] at hsignificand
    exact absurd ⟨_, hsignificand.trans (Nat.mul_comm ..)⟩ hten

end Magnitude.IsCoarsest

/-! ### Literals -/

namespace Literal

variable {l l' : Literal} {m : Magnitude}

/-- How many digits there are from the first to the last one that is not zero. -/
def significantDigits (l : Literal) : Nat :=
  (significant (l.whole.chars ++ l.fractionChars)).length

/-- The literal is read whole, as this magnitude. -/
def IsReadAs (l : Literal) (m : Magnitude) : Prop :=
  Coefficient.scan? l.chars = some (.finite .plus m, l.chars.length)

/-- It has no zeros that say nothing: no zero before another digit, and none at the end of a
fraction. -/
structure IsCanonical (l : Literal) : Prop where
  whole : l.whole.chars.head? = some '0' → l.whole.chars = ['0'] ∧ l.fraction ≠ none
  fraction : ∀ f, l.fraction = some f → f.chars.getLast? ≠ some '0'

/-- It is read as `m`; no literal that is read as `m` has fewer significant digits, and none with as many
is nearer to `m`. -/
structure IsShortest (l : Literal) (m : Magnitude) : Prop where
  isReadAs : l.IsReadAs m
  digits_le : ∀ l' : Literal, l'.IsReadAs m → l.significantDigits ≤ l'.significantDigits
  nearest : ∀ l' : Literal, l'.IsReadAs m → l'.significantDigits = l.significantDigits →
    |l.value - m.value| ≤ |l'.value - m.value|

theorem stopsAt_nil (l : Literal) : l.StopsAt [] :=
  ⟨Seam.nil.noDigitAhead, fun _ => Seam.nil.fractionDigits_eq_nil⟩

theorem isReadAs_iff : l.IsReadAs m ↔ m.IsReadFrom l.decimal := by
  have hscan := coefficient_scan?_chars_append l.stopsAt_nil
  rw [List.append_nil] at hscan
  rw [IsReadAs, hscan, magnitude?, Magnitude.IsReadFrom]
  simp

theorem isDigit_of_mem_digits (l : Literal) :
    ∀ c ∈ l.whole.chars ++ l.fractionChars, c.isDigit = true := by
  obtain ⟨whole, fraction⟩ := l
  refine List.forall_mem_append.2 ⟨whole.isDigit, ?_⟩
  cases fraction with
  | none => exact fun c hc => absurd hc List.not_mem_nil
  | some f => exact f.isDigit

/-- **A literal that is not zero is a decimal of its significant digits.** -/
theorem exists_decimal (l : Literal) (h : 0 < l.decimal.significand) :
    ∃ (d : Decimal) (c : Nat), d.value = l.value ∧ ¬ 10 ∣ d.significand ∧
      l.significantDigits = c + 1 ∧ 10 ^ c ≤ d.significand ∧ d.significand < 10 ^ (c + 1) := by
  obtain ⟨before, behind, hsplit⟩ := exists_eq_significant (l.whole.chars ++ l.fractionChars)
  have hsignificand : l.decimal.significand
      = ofDigits (significant (l.whole.chars ++ l.fractionChars)) * 10 ^ behind := by
    show ofDigits (l.whole.chars ++ l.fractionChars) = _
    conv_lhs => rw [hsplit]
    rw [ofDigits_append_replicate, ofDigits_replicate_append]
  have hne : significant (l.whole.chars ++ l.fractionChars) ≠ [] := by
    intro hnil
    rw [hsignificand, hnil] at h
    exact absurd h (by simp [ofDigits, Nat.ofDigitChars_nil])
  obtain ⟨c, hlength, hle, hlt, hten⟩ := ofDigits_significant l.isDigit_of_mem_digits hne
  refine ⟨⟨ofDigits (significant (l.whole.chars ++ l.fractionChars)), l.decimal.exponent + behind⟩,
    c, ?_, hten, hlength, hle, hlt⟩
  rw [← Decimal.value_mul_pow, ← hsignificand]
  exact l.value_decimal

/-- If it is read as `m`, so is this decimal. -/
theorem exists_decimal_of_isReadFrom (hm : m.isZero = false) (h : m.IsReadFrom l.decimal) :
    ∃ (d : Decimal) (c : Nat), d.value = l.value ∧ m.IsReadFrom d ∧ ¬ 10 ∣ d.significand ∧
      l.significantDigits = c + 1 ∧ 10 ^ c ≤ d.significand ∧ d.significand < 10 ^ (c + 1) := by
  obtain ⟨d, c, hd, hrest⟩ := l.exists_decimal (Magnitude.significand_pos hm h)
  exact ⟨d, c, hd, (Magnitude.isReadFrom_congr (hd.trans l.value_decimal.symm)).2 h, hrest⟩

/-- **The literal of a coarsest decimal is shortest.** -/
theorem isShortest_of_value_eq (hm : m.isZero = false) (hvalue : l.value = m.shortest.value) :
    l.IsShortest m := by
  have hcoarsest := Magnitude.isCoarsest_shortest hm
  have hread : m.IsReadFrom l.decimal :=
    (Magnitude.isReadFrom_congr (l.value_decimal.trans hvalue)).2 hcoarsest.isReadFrom
  obtain ⟨d, c, hd, _, hten, hcount, hle, _⟩ := exists_decimal_of_isReadFrom hm hread
  have hbest := hcoarsest.of_value_eq (hd.trans hvalue) hten
  refine ⟨isReadAs_iff.2 hread, fun l' h' => ?_, fun l' h' heq => ?_⟩
  · obtain ⟨d', c', _, hread', _, hcount', _, hlt'⟩ :=
      exists_decimal_of_isReadFrom hm (isReadAs_iff.1 h')
    rw [hcount, hcount']
    exact hbest.digits_le hm hle hread' hlt'
  · obtain ⟨d', c', hd', hread', _, hcount', _, hlt'⟩ :=
      exists_decimal_of_isReadFrom hm (isReadAs_iff.1 h')
    obtain rfl : c' = c := by omega
    rw [← hd, ← hd']
    exact hbest.nearest_of_digits hm hle hread' hlt'

end Literal

/-! ### The digits of a number -/

theorem head?_toDigits_ne {n : Nat} (h : 0 < n) : (toDigits n).head? ≠ some '0' := by
  induction n using Nat.strong_induction_on with
  | _ n ih =>
    unfold toDigits at ih ⊢
    rcases Nat.lt_or_ge n 10 with hlt | hge
    · rw [Nat.toDigits_of_lt_base hlt, List.head?_cons, Ne, Option.some.injEq,
        Nat.digitChar_eq_zero]
      omega
    · rw [Nat.toDigits_of_base_le (by decide) hge, List.head?_append_of_ne_nil _ (Nat.toDigits_ne_nil)]
      exact ih (n / 10) (by omega) (by omega)

theorem getLast?_toDigits_ne {n : Nat} (h : ¬ 10 ∣ n) : (toDigits n).getLast? ≠ some '0' := by
  unfold toDigits
  rcases Nat.lt_or_ge n 10 with hlt | hge
  · rw [Nat.toDigits_of_lt_base hlt, List.getLast?_singleton, Ne, Option.some.injEq,
      Nat.digitChar_eq_zero]
    omega
  · rw [Nat.toDigits_of_base_le (by decide) hge, List.getLast?_concat, Ne, Option.some.injEq,
      Nat.digitChar_eq_zero]
    omega

/-! ### The layout of a decimal -/

namespace Decimal

variable {d : Decimal}

/-- Padding leaves at least one digit before the point. -/
theorem lt_length_leftpad (digits : List Char) (k : Nat) :
    k + 1 < (digits.leftpad (k + 2) '0').length := by
  rw [List.length_leftpad]
  omega

/-- If this part starts with a zero, it was all padded. -/
theorem take_leftpad_eq {digits : List Char} (h : digits.head? ≠ some '0') {k whole : Nat}
    (hwhole : whole + (k + 1) = (digits.leftpad (k + 2) '0').length)
    (hhead : ((digits.leftpad (k + 2) '0').take whole).head? = some '0') :
    (digits.leftpad (k + 2) '0').take whole = ['0'] := by
  rw [List.length_leftpad] at hwhole
  rcases Nat.lt_or_ge digits.length (k + 2) with hlt | hge
  · obtain rfl : whole = 1 := by omega
    obtain ⟨zeros, hzeros⟩ := Nat.exists_eq_add_of_lt hlt
    have hpad : k + 2 - digits.length = zeros + 1 := by omega
    rw [List.leftpad, hpad]
    rfl
  · have hpad : k + 2 - digits.length = 0 := by omega
    rw [List.leftpad, hpad, List.replicate_zero, List.nil_append, List.head?_take,
      if_neg (by omega)] at hhead
    exact absurd hhead h

/-- **The layout of a decimal without zeros at its end has no zeros that say nothing.** -/
theorem exists_isCanonical (hpos : 0 < d.significand) (hten : ¬ 10 ∣ d.significand) :
    ∃ l : Literal, l.chars = d.positional ∧ l.IsCanonical := by
  obtain ⟨n, e⟩ := d
  cases e with
  | ofNat zeros =>
    have hdigit : ∀ c ∈ toDigits n ++ List.replicate zeros '0', c.isDigit = true :=
      List.forall_mem_append.2 ⟨fun _ => isDigit_of_mem_toDigits, fun _ => isDigit_of_mem_zeros⟩
    refine ⟨⟨⟨_, by simp, hdigit⟩, none⟩, List.append_nil _, fun hhead => ?_, nofun⟩
    rw [List.head?_append_of_ne_nil _ (toDigits_ne_nil n)] at hhead
    exact absurd hhead (head?_toDigits_ne hpos)
  | negSucc k =>
    -- A zero before the point comes from the padding, and then it stands there alone.
    have hlength := lt_length_leftpad (toDigits n) k
    have hwhole := take_leftpad_eq (head?_toDigits_ne hpos) (Nat.sub_add_cancel hlength.le)
    have hlast : ((toDigits n).leftpad (k + 2) '0').getLast? ≠ some '0' := by
      rw [List.leftpad, List.getLast?_append_of_ne_nil _ (toDigits_ne_nil n)]
      exact getLast?_toDigits_ne hten
    have hdigit : ∀ c ∈ (toDigits n).leftpad (k + 2) '0', c.isDigit = true :=
      List.forall_mem_append.2 ⟨fun _ => isDigit_of_mem_zeros, fun _ => isDigit_of_mem_toDigits⟩
    unfold positional
    dsimp only
    generalize (toDigits n).leftpad (k + 2) '0' = digits at *
    refine ⟨⟨⟨digits.take (digits.length - (k + 1)), ?_, ?_⟩,
      some ⟨digits.drop (digits.length - (k + 1)), ?_, ?_⟩⟩, rfl, ?_, ?_⟩
    · exact List.length_pos_iff.1 (by rw [List.length_take]; omega)
    · exact fun c hc => hdigit c (List.mem_of_mem_take hc)
    · exact List.length_pos_iff.1 (by rw [List.length_drop]; omega)
    · exact fun c hc => hdigit c (List.mem_of_mem_drop hc)
    · exact fun hhead => ⟨hwhole hhead, nofun⟩
    · rintro f hf
      cases hf
      rw [List.getLast?_drop, if_neg (by omega)]
      exact hlast

end Decimal

theorem Literal.value_of_chars_eq {l : Literal} {d : Decimal} (h : l.chars = d.positional) :
    l.value = d.value := by
  have hscan := Literal.scan?_chars_append l.stopsAt_nil
  rw [h, d.scan?_positional_append Seam.nil.noDigitAhead rfl] at hscan
  obtain ⟨hdecimal, _⟩ := Prod.mk.inj (Option.some.inj hscan)
  rw [← l.value_decimal, ← hdecimal, d.value_spelledOut]

/-! ### The numeral of a term -/

/-- A minus is written before what is less than zero. -/
theorem Sign.mark_eq (s : Sign) {m : Magnitude} (hm : m.isZero = false) :
    s.mark = if Coefficient.signedValue s m < 0 then ['-'] else [] := by
  have hpos := Magnitude.value_pos hm
  cases s with
  | plus =>
    have hvalue : Coefficient.signedValue .plus m = m.value := one_mul _
    rw [hvalue, if_neg hpos.not_gt]
    rfl
  | minus =>
    have hvalue : Coefficient.signedValue .minus m = -m.value := neg_one_mul _
    rw [hvalue, if_pos (neg_neg_of_pos hpos)]
    rfl

namespace Term

/-- **The numeral of a finite coefficient that is not zero is a canonical literal behind its sign, and
the shortest one that is read as its size.** -/
theorem exists_numeral (s : Sign) (m : Magnitude) (e : Exponent) (hm : m.isZero = false) :
    ∃ l : Literal,
      (⟨.finite s m, e⟩ : Term).text
        = .ofList ((if Coefficient.signedValue s m < 0 then ['-'] else []) ++ l.chars
            ++ powerChars e) ∧
      Coefficient.scan? (l.chars ++ powerChars e) = some (.finite .plus m, l.chars.length) ∧
      l.IsCanonical ∧ l.IsShortest m := by
  have hcoarsest := Magnitude.isCoarsest_shortest hm
  have hpos := Magnitude.significand_pos hm hcoarsest.isReadFrom
  obtain ⟨l, hchars, hcanonical⟩ := Decimal.exists_isCanonical hpos hcoarsest.not_ten_dvd
  have hvalue := l.value_of_chars_eq hchars
  refine ⟨l, ?_, ?_, hcanonical, Literal.isShortest_of_value_eq hm hvalue⟩
  · show String.ofList ((if m.isZero then [] else s.mark) ++ m.shortest.positional ++ powerChars e) = _
    rw [if_neg (Bool.eq_false_iff.1 hm), s.mark_eq hm, hchars]
  · obtain ⟨hdigit, hfraction⟩ := powerChars_append_ends e Seam.nil
    rw [List.append_nil] at hdigit hfraction
    rw [hchars, ← Coefficient.chars_plus]
    exact Coefficient.scan?_chars_append m hdigit hfraction

/-- Two units can also be written with a nine, one digit as well; the one is nearer. -/
theorem exists_numeral_twoUnits :
    Magnitude.twoUnits.isZero = false ∧ ∃ l : Literal,
      (⟨.finite .minus .twoUnits, ⟨12, by decide, by decide⟩⟩ : Term).text
        = .ofList ((if Coefficient.signedValue .minus .twoUnits < 0 then ['-'] else []) ++ l.chars
            ++ powerChars ⟨12, by decide, by decide⟩) ∧
      Coefficient.scan? (l.chars ++ powerChars ⟨12, by decide, by decide⟩)
        = some (.finite .plus .twoUnits, l.chars.length) ∧
      l.IsCanonical ∧ l.IsShortest .twoUnits :=
  ⟨rfl, exists_numeral .minus .twoUnits ⟨12, by decide, by decide⟩ rfl⟩

/-- The magnitude next to a tenth, above it. -/
example : (⟨.finite .minus ⟨7205759403792794 * 2 ^ (1018 : Nat), by decide +kernel,
    by decide +kernel⟩, ⟨12, by decide, by decide⟩⟩ : Term).text = "-0.1x^12" := by
  decide +kernel

end Term

end PowerRule
