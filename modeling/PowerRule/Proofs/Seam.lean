import PowerRule.TokenStream

/-!
Seams: where one text can be put behind another.

Every scan takes as much as it can, so what stands behind a lexeme may become part of it.  A `Seam` is
a text that no term goes on with: its first character, if it has one, is neither a digit nor a point
nor the variable nor a `^`.  In front of a seam each scan gives what it gives at the end of a text.

A minus is allowed at a seam, and there one lookahead is left: behind `x^` a minus is half of an
exponent.  The two laws that reach so far ask that no lone `^` is left in front of a minus
(`NoLoneCaret`); in a text that can be taken to its end no `^` is ever left.

Main statement: `Token.scan?_append`.
-/

namespace PowerRule

/-- A character that a term can go on with. -/
def isTermChar (c : Char) : Bool := c.isDigit || c == '.' || c == 'x' || c == '^'

/-- A text that no term goes on with. -/
def Seam (rest : List Char) : Prop := ∀ c ∈ rest.head?, isTermChar c = false

/-- What a scan left is not `^` alone, or no minus follows it. -/
def NoLoneCaret (left rest : List Char) : Prop := left = ['^'] → rest.head? ≠ some '-'

/-! ### What a seam starts with -/

/-- Where the variable does not stand there is no power. -/
theorem Token.scanPower_of_head?_ne {text : List Char} (h : text.head? ≠ some 'x') :
    scanPower text = (.zero, 0) := by
  cases text with
  | nil => rfl
  | cons c tail =>
    have hx : c ≠ 'x' := by
      rintro rfl
      exact h rfl
    simp [scanPower, hx]

namespace Seam

theorem nil : Seam [] := by
  intro c hc
  cases hc

theorem cons {c : Char} (h : isTermChar c = false) (rest : List Char) : Seam (c :: rest) := by
  intro d hd
  cases hd
  exact h

theorem lexeme (s : Sign) (rest : List Char) : Seam (s.lexeme :: rest) := by
  cases s
  · exact cons rfl rest
  · exact cons rfl rest

variable {rest : List Char}

theorem noDigitAhead (h : Seam rest) : NoDigitAhead rest := by
  intro c hc
  have hterm := h c hc
  simp only [isTermChar, Bool.or_eq_false_iff] at hterm
  exact hterm.1.1.1

theorem head?_ne (h : Seam rest) {c : Char} (hc : isTermChar c = true) : rest.head? ≠ some c := by
  intro hhead
  have hterm := h c hhead
  rw [hc] at hterm
  cases hterm

theorem fractionDigits_eq_nil (h : Seam rest) : Decimal.fractionDigits rest = [] := by
  cases rest with
  | nil => rfl
  | cons c tail =>
    have hpoint : c ≠ '.' := by
      rintro rfl
      exact h.head?_ne rfl rfl
    simp [Decimal.fractionDigits, hpoint]

theorem scanPower_eq (h : Seam rest) : Token.scanPower rest = (.zero, 0) :=
  Token.scanPower_of_head?_ne (h.head?_ne rfl)

theorem scanExponent_eq (h : Seam rest) : Token.scanExponent rest = (.one, 0) := by
  cases rest with
  | nil => rfl
  | cons c tail =>
    have hcaret : c ≠ '^' := by
      rintro rfl
      exact h.head?_ne rfl rfl
    simp [Token.scanExponent, hcaret]

end Seam

/-! ### Digits -/

theorem noDigitAhead_afterDigits (text : List Char) : NoDigitAhead (afterDigits text) := by
  intro c hc
  have hhead := List.head?_dropWhile_not Char.isDigit text
  unfold afterDigits at hc
  rw [Option.mem_def.1 hc] at hhead
  simpa using hhead

theorem NoDigitAhead.append {text rest : List Char} (h : NoDigitAhead text)
    (hr : NoDigitAhead rest) : NoDigitAhead (text ++ rest) := by
  cases text with
  | nil => exact hr
  | cons c tail =>
    intro d hd
    exact h d hd

/-- Cutting a longer text into digits and what follows them. -/
theorem append_eq_leadingDigits_append (text rest : List Char) :
    text ++ rest = leadingDigits text ++ (afterDigits text ++ rest) := by
  rw [← List.append_assoc, leadingDigits_append_afterDigits]

theorem leadingDigits_append_right (text : List Char) {rest : List Char} (hr : NoDigitAhead rest) :
    leadingDigits (text ++ rest) = leadingDigits text := by
  rw [append_eq_leadingDigits_append]
  exact leadingDigits_append (fun _ => isDigit_of_mem_leadingDigits)
    ((noDigitAhead_afterDigits text).append hr)

theorem afterDigits_append_right (text : List Char) {rest : List Char} (hr : NoDigitAhead rest) :
    afterDigits (text ++ rest) = afterDigits text ++ rest := by
  rw [append_eq_leadingDigits_append]
  exact afterDigits_append (fun _ => isDigit_of_mem_leadingDigits)
    ((noDigitAhead_afterDigits text).append hr)

/-! ### Numbers in front of a seam -/

theorem Integer.scanNat?_append_right (text : List Char) {rest : List Char} (hr : NoDigitAhead rest) :
    Integer.scanNat? (text ++ rest) = Integer.scanNat? text := by
  unfold Integer.scanNat?
  rw [leadingDigits_append_right text hr]

theorem Integer.scan?_cons {c : Char} (h : c ≠ '-') (tail : List Char) :
    Integer.scan? (c :: tail)
      = (scanNat? (c :: tail)).map fun (n, width) => ((n : Int), width) := by
  simp [Integer.scan?, h]

/-- Only in front of a lone minus can an integer begin behind the end of a text. -/
theorem Integer.scan?_append_right {text rest : List Char} (hr : NoDigitAhead rest)
    (hminus : text = [] → rest.head? ≠ some '-') :
    Integer.scan? (text ++ rest) = Integer.scan? text := by
  rcases text with - | ⟨c, tail⟩
  · -- Here the seam itself is scanned, and without a minus it starts no integer.
    have hnat := scanNat?_append_right [] hr
    rcases rest with - | ⟨d, others⟩
    · rfl
    · have hd : d ≠ '-' := by
        rintro rfl
        exact hminus rfl rfl
      show Integer.scan? (d :: others) = none
      rw [Integer.scan?_cons hd, show scanNat? (d :: others) = none from hnat]
      rfl
  · by_cases hc : c = '-'
    · subst hc
      show (scanNat? (tail ++ rest)).map _ = (scanNat? tail).map _
      rw [scanNat?_append_right tail hr]
    · have hnat := scanNat?_append_right (c :: tail) hr
      rw [List.cons_append] at hnat ⊢
      rw [Integer.scan?_cons hc, Integer.scan?_cons hc, hnat]

theorem Exponent.scan?_append_right {text rest : List Char} (hr : NoDigitAhead rest)
    (hminus : text = [] → rest.head? ≠ some '-') :
    Exponent.scan? (text ++ rest) = Exponent.scan? text := by
  unfold Exponent.scan?
  rw [Integer.scan?_append_right hr hminus]

theorem Decimal.fractionDigits_append_right (text : List Char) {rest : List Char} (hr : Seam rest) :
    Decimal.fractionDigits (text ++ rest) = Decimal.fractionDigits text := by
  rcases text with - | ⟨c, tail⟩
  · exact hr.fractionDigits_eq_nil
  · by_cases hc : c = '.'
    · subst hc
      exact leadingDigits_append_right tail hr.noDigitAhead
    · simp [Decimal.fractionDigits, hc]

theorem Decimal.scan?_append_right (text : List Char) {rest : List Char} (hr : Seam rest) :
    Decimal.scan? (text ++ rest) = Decimal.scan? text := by
  unfold Decimal.scan?
  rw [leadingDigits_append_right text hr.noDigitAhead, afterDigits_append_right text hr.noDigitAhead,
    fractionDigits_append_right _ hr]

theorem Coefficient.scan?_append_right (text : List Char) {rest : List Char} (hr : Seam rest) :
    Coefficient.scan? (text ++ rest) = Coefficient.scan? text := by
  unfold Coefficient.scan?
  rw [Decimal.scan?_append_right text hr]

/-! ### Tokens in front of a seam -/

namespace Token

theorem scanExponent_caret (text : List Char) :
    scanExponent ('^' :: text)
      = ((Exponent.scan? text).map fun (e, width) => (e, width + 1)).getD (.one, 0) := rfl

theorem scanPower_variable (text : List Char) :
    scanPower ('x' :: text) = ((scanExponent text).1, (scanExponent text).2 + 1) := rfl

/-- Where no literal stands, a power is a term by itself. -/
theorem scanBare?_variable (text : List Char) :
    scanBare? ('x' :: text)
      = some (term ⟨.one, (scanPower ('x' :: text)).1⟩, (scanPower ('x' :: text)).2) := rfl

theorem scanExponent_append_right {text rest : List Char} (hr : Seam rest)
    (hlone : NoLoneCaret (text.drop (scanExponent text).2) rest) :
    scanExponent (text ++ rest) = scanExponent text := by
  rcases text with - | ⟨c, tail⟩
  · exact hr.scanExponent_eq
  · by_cases hc : c = '^'
    · subst hc
      -- If nothing stands behind the `^` it is left alone, so no minus follows.
      have hminus : tail = [] → rest.head? ≠ some '-' := by
        rintro rfl
        exact hlone rfl
      rw [List.cons_append, scanExponent_caret, scanExponent_caret,
        Exponent.scan?_append_right hr.noDigitAhead hminus]
    · simp [scanExponent, hc]

theorem scanPower_append_right {text rest : List Char} (hr : Seam rest)
    (hlone : NoLoneCaret (text.drop (scanPower text).2) rest) :
    scanPower (text ++ rest) = scanPower text := by
  rcases text with - | ⟨c, tail⟩
  · exact hr.scanPower_eq
  · by_cases hc : c = 'x'
    · subst hc
      rw [List.cons_append, scanPower_variable, scanPower_variable,
        scanExponent_append_right hr hlone]
    · simp [scanPower, hc]

theorem scanBare?_append_right {text rest : List Char} {t : Token} {width : Nat} (hr : Seam rest)
    (h : scanBare? text = some (t, width)) (hlone : NoLoneCaret (text.drop width) rest) :
    scanBare? (text ++ rest) = some (t, width) := by
  rcases text with - | ⟨c, tail⟩
  · cases h
  · by_cases hc : c = 'x'
    · subst hc
      rw [scanBare?_variable] at h
      cases h
      have hpower : scanPower ('x' :: tail ++ rest) = scanPower ('x' :: tail) :=
        scanPower_append_right hr hlone
      rw [List.cons_append] at hpower ⊢
      rw [scanBare?_variable, hpower]
    · simpa [scanBare?, hc] using h

/-- **A token stays as it is when a seam is put behind the text.** -/
theorem scan?_append {text rest : List Char} {t : Token} {width : Nat} (hr : Seam rest)
    (h : scan? text = some (t, width)) (hlone : NoLoneCaret (text.drop width) rest) :
    scan? (text ++ rest) = some (t, width) := by
  unfold scan? at h ⊢
  rw [Coefficient.scan?_append_right text hr]
  cases hc : Coefficient.scan? text with
  | none =>
    rw [hc] at h
    exact scanBare?_append_right hr h hlone
  | some p =>
    obtain ⟨c, w⟩ := p
    rw [hc] at h
    have hdrop : (text ++ rest).drop w = text.drop w ++ rest :=
      List.drop_append_of_le_length (Coefficient.scan?_width hc).2
    -- What is left behind the token is what the power left of the text behind the coefficient.
    have hw : w + (scanPower (text.drop w)).2 = width := congrArg Prod.snd (Option.some.inj h)
    rw [← hw, ← List.drop_drop] at hlone
    dsimp only at h ⊢
    rw [hdrop, scanPower_append_right hr hlone]
    exact h

end Token

end PowerRule
