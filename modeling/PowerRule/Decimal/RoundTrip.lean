import PowerRule.Decimal

/-!
Writing a decimal in its places and reading it as a literal.

The literal has the digits of the layout, so a decimal with a negative exponent comes back as it was.
One with a positive exponent comes back with its zeros spelled out as digits:

    scan? (d.positional ++ rest) = some (d.spelledOut, d.positional.length)

when `rest` goes on neither with a digit nor with a point and a digit.
-/

namespace PowerRule

/-! ### Values of padded runs -/

theorem ofDigits_append_zeros (n zeros : Nat) :
    ofDigits (toDigits n ++ List.replicate zeros '0') = n * 10 ^ zeros := by
  unfold ofDigits toDigits
  rw [Nat.ofDigitChars_append, Nat.ofDigitChars_ten_toDigits, Nat.ofDigitChars_replicate_zero,
    Nat.mul_comm]

theorem ofDigits_leftpad (n k : Nat) : ofDigits ((toDigits n).leftpad k '0') = n := by
  unfold ofDigits toDigits List.leftpad
  rw [Nat.ofDigitChars_append, Nat.ofDigitChars_replicate_zero, Nat.mul_zero,
    Nat.ofDigitChars_ten_toDigits]

theorem isDigit_of_mem_zeros {zeros : Nat} {c : Char} (h : c ∈ List.replicate zeros '0') :
    c.isDigit = true := by
  rw [List.eq_of_mem_replicate h]
  rfl

namespace Decimal

/-- The same number without a positive power of ten. -/
def spelledOut (d : Decimal) : Decimal :=
  match d.exponent with
  | .ofNat zeros => ⟨d.significand * 10 ^ zeros, 0⟩
  | .negSucc _ => d

/-! ### Literals of both forms -/

theorem noDigitAhead_point (rest : List Char) : NoDigitAhead ('.' :: rest) := by
  intro c hc
  cases hc
  rfl

/-- Digits alone are a literal. -/
theorem scan?_whole {whole rest : List Char} (hne : whole ≠ []) (hw : ∀ c ∈ whole, c.isDigit = true)
    (hr : NoDigitAhead rest) (hf : fractionDigits rest = []) :
    scan? (whole ++ rest) = some (ofParts whole [], whole.length) := by
  unfold scan?
  simp only [leadingDigits_append hw hr, afterDigits_append hw hr, hf, if_neg hne, if_true,
    Nat.add_zero]

/-- Digits on both sides of a point are a literal. -/
theorem scan?_pointed {whole fraction rest : List Char} (hne : whole ≠ [])
    (hw : ∀ c ∈ whole, c.isDigit = true) (hfne : fraction ≠ [])
    (hf : ∀ c ∈ fraction, c.isDigit = true) (hr : NoDigitAhead rest) :
    scan? (whole ++ '.' :: fraction ++ rest)
      = some (ofParts whole fraction, (whole ++ '.' :: fraction).length) := by
  have hsplit : whole ++ '.' :: fraction ++ rest = whole ++ '.' :: (fraction ++ rest) := by simp
  have hpoint := noDigitAhead_point (fraction ++ rest)
  have hfrac : fractionDigits ('.' :: (fraction ++ rest)) = fraction := leadingDigits_append hf hr
  rw [hsplit]
  unfold scan?
  simp only [leadingDigits_append hw hpoint, afterDigits_append hw hpoint, hfrac, if_neg hne,
    if_neg hfne, List.length_append, List.length_cons]

/-! ### The positional layout -/

/-- **A decimal reads back from its positional layout.** -/
theorem scan?_positional_append (d : Decimal) {rest : List Char} (hr : NoDigitAhead rest)
    (hf : fractionDigits rest = []) :
    scan? (d.positional ++ rest) = some (d.spelledOut, d.positional.length) := by
  obtain ⟨n, e⟩ := d
  cases e with
  | ofNat zeros =>
    have hdigits : ∀ c ∈ toDigits n ++ List.replicate zeros '0', c.isDigit = true := by
      intro c hc
      rcases List.mem_append.1 hc with h | h
      · exact isDigit_of_mem_toDigits h
      · exact isDigit_of_mem_zeros h
    have hne : toDigits n ++ List.replicate zeros '0' ≠ [] := by simp
    show scan? (toDigits n ++ List.replicate zeros '0' ++ rest) = _
    rw [scan?_whole hne hdigits hr hf]
    simp only [ofParts, List.append_nil, ofDigits_append_zeros]
    rfl
  | negSucc k =>
    -- The padding leaves at least one digit in front of the point.
    let digits := (toDigits n).leftpad (k + 2) '0'
    have hlen : k + 2 ≤ digits.length := by
      simp only [digits, List.length_leftpad]
      exact Nat.le_max_left _ _
    have hdigits : ∀ c ∈ digits, c.isDigit = true := by
      intro c hc
      rcases List.mem_append.1 hc with h | h
      · exact isDigit_of_mem_zeros h
      · exact isDigit_of_mem_toDigits h
    let whole := digits.take (digits.length - (k + 1))
    let fraction := digits.drop (digits.length - (k + 1))
    have hwlen : whole.length = digits.length - (k + 1) := by
      simp only [whole, List.length_take]; omega
    have hflen : fraction.length = k + 1 := by
      simp only [fraction, List.length_drop]; omega
    have hw : whole ≠ [] := List.length_pos_iff.1 (by omega)
    have hfr : fraction ≠ [] := List.length_pos_iff.1 (by omega)
    show scan? (whole ++ '.' :: fraction ++ rest) = some (_, (whole ++ '.' :: fraction).length)
    rw [scan?_pointed hw (fun c hc => hdigits c (List.mem_of_mem_take hc)) hfr
      (fun c hc => hdigits c (List.mem_of_mem_drop hc)) hr]
    have hval : ofParts whole fraction = ⟨n, .negSucc k⟩ := by
      unfold ofParts
      rw [List.take_append_drop, ofDigits_leftpad, hflen]
      rfl
    rw [hval]
    rfl

end Decimal

end PowerRule
