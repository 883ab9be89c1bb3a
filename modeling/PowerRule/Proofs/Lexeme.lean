import PowerRule.Proofs.Seam

/-!
Lexemes: the texts of tokens, as data.

A term is written in five forms,

    coefficient "x^" exponent  |  coefficient "x"  |  coefficient  |  "x^" exponent  |  "x"

with `coefficient = digit+ ("." digit+)?` and `exponent = "-"? digit+`, and an operator in one.  A form
is well formed by its type; what it can still lack is a value, when its coefficient rounds beyond the
format or its exponent is out of range.

The scans and the forms are the same language:

* `Lexeme.scan?_chars_append` - a form with a value is scanned whole, with this value, in front of a
  seam;
* `Lexeme.exists_of_scan?` - whatever is scanned has a form with this value.
-/

namespace PowerRule

/-! ### Forms -/

/-- One digit or more. -/
@[ext] structure Digits where
  chars : List Char
  ne_nil : chars ≠ []
  isDigit : ∀ c ∈ chars, c.isDigit = true

/-- Digits, or digits on both sides of a point. -/
@[ext] structure Literal where
  whole : Digits
  fraction : Option Digits

/-- Digits with or without a minus before them. -/
@[ext] structure IntegerLiteral where
  negative : Bool
  digits : Digits

/-- How a power of the variable is written. -/
inductive PowerForm where
  /-- The variable alone. -/
  | plain
  /-- The variable with an exponent. -/
  | raised (exponent : IntegerLiteral)

/-- How a term is written. -/
inductive TermForm where
  /-- A coefficient alone. -/
  | constant (coefficient : Literal)
  /-- A coefficient and a power. -/
  | scaled (coefficient : Literal) (power : PowerForm)
  /-- A power alone. -/
  | bare (power : PowerForm)

/-- How a token is written. -/
inductive Lexeme where
  | term (form : TermForm)
  | operator (sign : Sign)

/-! ### The text of a form, and its value -/

namespace Literal

/-- The digits behind the point. -/
def fractionChars (l : Literal) : List Char := l.fraction.elim [] Digits.chars

def chars (l : Literal) : List Char :=
  l.whole.chars ++ l.fraction.elim [] fun f => '.' :: f.chars

/-- The number that is written. -/
def decimal (l : Literal) : Decimal :=
  ⟨ofDigits (l.whole.chars ++ l.fractionChars), -l.fractionChars.length⟩

/-- The magnitude nearest to it, if it rounds to a finite one. -/
def magnitude? (l : Literal) : Option Magnitude := Magnitude.ofDecimal? l.decimal

end Literal

namespace IntegerLiteral

def chars (n : IntegerLiteral) : List Char :=
  if n.negative then '-' :: n.digits.chars else n.digits.chars

/-- The number that is written. -/
def value (n : IntegerLiteral) : Int :=
  if n.negative then -(ofDigits n.digits.chars : Int) else ofDigits n.digits.chars

end IntegerLiteral

namespace PowerForm

def chars : PowerForm → List Char
  | plain => ['x']
  | raised n => 'x' :: '^' :: n.chars

/-- The exponent, if it is in range. -/
def exponent? : PowerForm → Option Exponent
  | plain => some .one
  | raised n => Exponent.ofInt? n.value

@[simp] theorem chars_plain : plain.chars = ['x'] := rfl

@[simp] theorem exponent?_plain : plain.exponent? = some .one := rfl

end PowerForm

namespace TermForm

def chars : TermForm → List Char
  | constant l => l.chars
  | scaled l p => l.chars ++ p.chars
  | bare p => p.chars

/-- The term, if its parts have values. -/
def term? : TermForm → Option Term
  | constant l => l.magnitude?.map fun m => ⟨.finite .plus m, .zero⟩
  | scaled l p => l.magnitude?.bind fun m => p.exponent?.map fun e => ⟨.finite .plus m, e⟩
  | bare p => p.exponent?.map fun e => ⟨.one, e⟩

/-- A form has no sign, and its coefficient is finite. -/
theorem exists_magnitude_of_term? {f : TermForm} {t : Term} (h : f.term? = some t) :
    ∃ m, t.coefficient = .finite .plus m := by
  cases f with
  | constant l =>
    obtain ⟨m, _, rfl⟩ := Option.map_eq_some_iff.1 h
    exact ⟨m, rfl⟩
  | scaled l p =>
    obtain ⟨m, _, hp⟩ := Option.bind_eq_some_iff.1 h
    obtain ⟨e, _, rfl⟩ := Option.map_eq_some_iff.1 hp
    exact ⟨m, rfl⟩
  | bare p =>
    obtain ⟨e, _, rfl⟩ := Option.map_eq_some_iff.1 h
    exact ⟨.one, rfl⟩

end TermForm

namespace Lexeme

def chars : Lexeme → List Char
  | term f => f.chars
  | operator s => [s.lexeme]

/-- The token, if its parts have values. -/
def token? : Lexeme → Option Token
  | term f => f.term?.map .term
  | operator s => some (.operator s)

/-- An operator ends by itself; a term needs a seam behind it. -/
def EndsAt : Lexeme → List Char → Prop
  | term _, rest => Seam rest
  | operator _, _ => True

end Lexeme

/-! ### Where a form stops

A scan takes as much as it can, so a form is scanned whole only where it cannot go on. -/

/-- No digit follows, and no point with a digit if there is no fraction yet. -/
def Literal.StopsAt (l : Literal) (rest : List Char) : Prop :=
  NoDigitAhead rest ∧ (l.fraction = none → Decimal.fractionDigits rest = [])

/-- No exponent follows the variable, or no digit the exponent. -/
def PowerForm.StopsAt : PowerForm → List Char → Prop
  | plain, rest => ∀ tail, rest = '^' :: tail → Integer.scan? tail = none
  | raised _, rest => NoDigitAhead rest

/-- No longer form of a term follows. -/
def TermForm.StopsAt : TermForm → List Char → Prop
  | constant l, rest => l.StopsAt rest ∧ rest.head? ≠ some 'x'
  | scaled _ p, rest => p.StopsAt rest
  | bare p, rest => p.StopsAt rest

/-- The form without its exponent: the part up to the variable. -/
def TermForm.unraised : TermForm → TermForm
  | constant l => constant l
  | scaled l _ => scaled l .plain
  | bare _ => bare .plain

theorem Seam.power_stopsAt {rest : List Char} (h : Seam rest) (p : PowerForm) : p.StopsAt rest := by
  cases p with
  | plain =>
    rintro tail rfl
    exact absurd rfl (h.head?_ne (c := '^') rfl)
  | raised n => exact h.noDigitAhead

/-- At a seam every form stops. -/
theorem Seam.stopsAt {rest : List Char} (h : Seam rest) (f : TermForm) : f.StopsAt rest := by
  cases f with
  | constant l => exact ⟨⟨h.noDigitAhead, fun _ => h.fractionDigits_eq_nil⟩, h.head?_ne rfl⟩
  | scaled l p => exact h.power_stopsAt p
  | bare p => exact h.power_stopsAt p

/-! ### Forms are scanned whole -/

theorem Digits.exists_cons (d : Digits) : ∃ c tail, d.chars = c :: tail ∧ c.isDigit = true := by
  obtain ⟨chars, hne, hdigit⟩ := d
  cases chars with
  | nil => exact absurd rfl hne
  | cons c tail => exact ⟨c, tail, rfl, hdigit c (.head tail)⟩

theorem Literal.exists_cons (l : Literal) :
    ∃ c tail, l.chars = c :: tail ∧ c.isDigit = true := by
  obtain ⟨c, tail, hwhole, hdigit⟩ := l.whole.exists_cons
  refine ⟨c, tail ++ l.fraction.elim [] fun f => '.' :: f.chars, ?_, hdigit⟩
  rw [chars, hwhole, List.cons_append]

theorem Digits.scanNat?_chars_append (d : Digits) {rest : List Char} (hr : NoDigitAhead rest) :
    Integer.scanNat? (d.chars ++ rest) = some (ofDigits d.chars, d.chars.length) := by
  unfold Integer.scanNat?
  rw [leadingDigits_append d.isDigit hr]
  simp only [if_neg d.ne_nil]

theorem IntegerLiteral.scan?_chars_append (n : IntegerLiteral) {rest : List Char} (hr : NoDigitAhead rest) :
    Integer.scan? (n.chars ++ rest) = some (n.value, n.chars.length) := by
  obtain ⟨negative, digits⟩ := n
  have hnat := digits.scanNat?_chars_append hr
  cases negative with
  | true =>
    show (Integer.scanNat? (digits.chars ++ rest)).map _ = _
    rw [hnat]
    rfl
  | false =>
    obtain ⟨c, tail, hchars, hdigit⟩ := digits.exists_cons
    have hc : c ≠ '-' := by
      rintro rfl
      cases hdigit
    show Integer.scan? (digits.chars ++ rest) = _
    rw [hchars, List.cons_append] at hnat ⊢
    rw [Integer.scan?_cons hc, hnat, ← hchars]
    rfl

theorem Literal.scan?_chars_append {l : Literal} {rest : List Char} (hr : l.StopsAt rest) :
    Decimal.scan? (l.chars ++ rest) = some (l.decimal, l.chars.length) := by
  obtain ⟨whole, fraction⟩ := l
  obtain ⟨hdigit, hfraction⟩ := hr
  cases fraction with
  | none =>
    show Decimal.scan? (whole.chars ++ [] ++ rest) = some (_, (whole.chars ++ []).length)
    rw [List.append_nil]
    exact Decimal.scan?_whole whole.ne_nil whole.isDigit hdigit (hfraction rfl)
  | some f =>
    exact Decimal.scan?_pointed whole.ne_nil whole.isDigit f.ne_nil f.isDigit hdigit

theorem Literal.coefficient_scan?_chars_append {l : Literal} {rest : List Char}
    (hr : l.StopsAt rest) :
    Coefficient.scan? (l.chars ++ rest)
      = l.magnitude?.map fun m => (.finite .plus m, l.chars.length) := by
  unfold Coefficient.scan? Literal.magnitude?
  rw [scan?_chars_append hr, Option.bind_some]

/-- Behind the variable an exponent is taken only if it is in range. -/
theorem PowerForm.scanPower_chars_append {p : PowerForm} {rest : List Char} (hr : p.StopsAt rest) :
    Token.scanPower (p.chars ++ rest) = (p.exponent?.map (·, p.chars.length)).getD (.one, 1) := by
  cases p with
  | plain =>
    have hexp : Token.scanExponent rest = (.one, 0) := by
      rcases rest with - | ⟨c, tail⟩
      · rfl
      · by_cases hc : c = '^'
        · subst hc
          rw [Token.scanExponent_caret, Exponent.scan?, hr tail rfl]
          rfl
        · simp [Token.scanExponent, hc]
    show ((Token.scanExponent rest).1, (Token.scanExponent rest).2 + 1) = _
    rw [hexp]
    rfl
  | raised n =>
    have hexp : Exponent.scan? (n.chars ++ rest)
        = (Exponent.ofInt? n.value).map (·, n.chars.length) := by
      rw [Exponent.scan?, n.scan?_chars_append hr, Option.bind_some]
    show Token.scanPower ('x' :: '^' :: (n.chars ++ rest)) = _
    rw [Token.scanPower_variable, Token.scanExponent_caret, hexp]
    show _ = ((Exponent.ofInt? n.value).map _).getD _
    cases Exponent.ofInt? n.value
    · rfl
    · rfl

/-- A power starts with the variable, so no literal goes on with it. -/
theorem PowerForm.exists_cons (p : PowerForm) : ∃ tail, p.chars = 'x' :: tail := by
  cases p with
  | plain => exact ⟨[], rfl⟩
  | raised n => exact ⟨'^' :: n.chars, rfl⟩

theorem noDigitAhead_variable (rest : List Char) : NoDigitAhead ('x' :: rest) := by
  intro c hc
  cases hc
  rfl

theorem coefficient_scan?_variable (rest : List Char) : Coefficient.scan? ('x' :: rest) = none := by
  rw [Coefficient.scan?, Decimal.scan?_eq_none (noDigitAhead_variable rest)]
  rfl

namespace Token

/-- Behind a coefficient stands a power or none. -/
theorem scan?_of_coefficient {text : List Char} {c : Coefficient} {width : Nat}
    (h : Coefficient.scan? text = some (c, width)) :
    scan? text = some (term ⟨c, (scanPower (text.drop width)).1⟩,
      width + (scanPower (text.drop width)).2) := by
  rw [scan?, h]

theorem scan?_of_no_coefficient {text : List Char} (h : Coefficient.scan? text = none) :
    scan? text = scanBare? text := by
  rw [scan?, h]

theorem coefficient_scan?_lexeme (s : Sign) (rest : List Char) :
    Coefficient.scan? (s.lexeme :: rest) = none := by
  have hdigit : NoDigitAhead (s.lexeme :: rest) := (Seam.lexeme s rest).noDigitAhead
  rw [Coefficient.scan?, Decimal.scan?_eq_none hdigit]
  rfl

/-- An operator is scanned in front of anything. -/
theorem scan?_lexeme (s : Sign) (rest : List Char) :
    scan? (s.lexeme :: rest) = some (operator s, 1) := by
  rw [scan?_of_no_coefficient (coefficient_scan?_lexeme s rest)]
  cases s
  · rfl
  · rfl

end Token

/-- A literal in front of a power is scanned whole. -/
theorem Literal.stopsAt_power (l : Literal) (p : PowerForm) (rest : List Char) :
    l.StopsAt (p.chars ++ rest) := by
  obtain ⟨tail, htail⟩ := p.exists_cons
  rw [htail]
  exact ⟨noDigitAhead_variable _, fun _ => rfl⟩

theorem Token.scanBare?_of_isDigit {c : Char} (h : c.isDigit = true) (rest : List Char) :
    scanBare? (c :: rest) = none := by
  have hne : ∀ d : Char, d.isDigit = false → c ≠ d := by
    rintro d hd rfl
    rw [h] at hd
    cases hd
  simp [scanBare?, Sign.ofChar?, hne 'x' rfl, hne '+' rfl, hne '-' rfl]

/-- Digits that round beyond the format start no token. -/
theorem Literal.scan?_of_magnitude?_none {l : Literal} (h : l.magnitude? = none) {rest : List Char}
    (hr : l.StopsAt rest) : Token.scan? (l.chars ++ rest) = none := by
  have hscan := coefficient_scan?_chars_append hr
  rw [h, Option.map_none] at hscan
  rw [Token.scan?_of_no_coefficient hscan]
  obtain ⟨c, tail, hchars, hdigit⟩ := l.exists_cons
  rw [hchars]
  exact Token.scanBare?_of_isDigit hdigit _

/-- **What is scanned where a term stops:** the term, or if it has no value the part up to its
variable. -/
theorem TermForm.scan?_of_stopsAt {f : TermForm} {rest : List Char} (hr : f.StopsAt rest) :
    Token.scan? (f.chars ++ rest) =
      (f.term?.map fun t => (Token.term t, f.chars.length)).or
        (f.unraised.term?.map fun t => (Token.term t, f.unraised.chars.length)) := by
  cases f with
  | constant l =>
    cases hm : l.magnitude? with
    | none => simp [chars, term?, unraised, hm, Literal.scan?_of_magnitude?_none hm hr.1]
    | some m =>
      have hscan := Literal.coefficient_scan?_chars_append hr.1
      rw [hm, Option.map_some] at hscan
      have hpower : Token.scanPower rest = (.zero, 0) := Token.scanPower_of_head?_ne hr.2
      show Token.scan? (l.chars ++ rest) = _
      rw [Token.scan?_of_coefficient hscan, List.drop_left, hpower]
      simp [chars, term?, hm]
  | scaled l p =>
    have hstop := l.stopsAt_power p rest
    have hsplit : (scaled l p).chars ++ rest = l.chars ++ (p.chars ++ rest) := List.append_assoc ..
    rw [hsplit]
    cases hm : l.magnitude? with
    | none => simp [term?, unraised, hm, Literal.scan?_of_magnitude?_none hm hstop]
    | some m =>
      have hscan := Literal.coefficient_scan?_chars_append hstop
      rw [hm, Option.map_some] at hscan
      rw [Token.scan?_of_coefficient hscan, List.drop_left, PowerForm.scanPower_chars_append hr]
      cases he : p.exponent? with
      | none => simp [chars, term?, unraised, hm, he]
      | some e => simp [chars, term?, hm, he]
  | bare p =>
    -- No coefficient is found in front of the variable, which is the last form to be tried.
    have hpower := PowerForm.scanPower_chars_append hr
    obtain ⟨tail, htail⟩ := p.exists_cons
    show Token.scan? (p.chars ++ rest) = _
    rw [htail, List.cons_append] at hpower ⊢
    rw [Token.scan?_of_no_coefficient (coefficient_scan?_variable _), Token.scanBare?_variable, hpower,
      ← htail]
    cases he : p.exponent? with
    | none => simp [chars, term?, unraised, he]
    | some e => simp [chars, term?, he]

/-- A term is scanned in front of a seam. -/
theorem TermForm.scan?_chars_append {f : TermForm} {t : Term} (h : f.term? = some t)
    {rest : List Char} (hr : Seam rest) :
    Token.scan? (f.chars ++ rest) = some (.term t, f.chars.length) := by
  rw [scan?_of_stopsAt (hr.stopsAt f), h]
  rfl

/-- **A lexeme with a value is scanned whole, with this value.** -/
theorem Lexeme.scan?_chars_append {l : Lexeme} {t : Token} (h : l.token? = some t)
    {rest : List Char} (hr : l.EndsAt rest) :
    Token.scan? (l.chars ++ rest) = some (t, l.chars.length) := by
  cases l with
  | term f =>
    obtain ⟨u, hu, rfl⟩ := Option.map_eq_some_iff.1 h
    exact TermForm.scan?_chars_append hu hr
  | operator s =>
    cases h
    exact Token.scan?_lexeme s rest

/-! ### What is scanned has a form -/

theorem take_leadingDigits_add (text : List Char) (n : Nat) :
    text.take ((leadingDigits text).length + n)
      = leadingDigits text ++ (afterDigits text).take n := by
  have htake : (leadingDigits text ++ afterDigits text).take ((leadingDigits text).length + n)
      = leadingDigits text ++ (afterDigits text).take n := List.take_length_add_append n
  rwa [leadingDigits_append_afterDigits] at htake

theorem take_length_leadingDigits (text : List Char) :
    text.take (leadingDigits text).length = leadingDigits text := by
  have htake := take_leadingDigits_add text 0
  rwa [List.take_zero, List.append_nil] at htake

/-- The digits that a text starts with, if there are any. -/
def Digits.leading (text : List Char) (h : leadingDigits text ≠ []) : Digits where
  chars := leadingDigits text
  ne_nil := h
  isDigit _ := isDigit_of_mem_leadingDigits

theorem Digits.exists_of_scanNat? {text : List Char} {n width : Nat}
    (h : Integer.scanNat? text = some (n, width)) :
    ∃ d : Digits, d.chars = text.take width ∧ ofDigits d.chars = n := by
  unfold Integer.scanNat? at h
  dsimp only at h
  split at h
  · cases h
  · next hne =>
    cases h
    exact ⟨leading text hne, (take_length_leadingDigits text).symm, rfl⟩

theorem IntegerLiteral.exists_of_scan? {text : List Char} {n : Int} {width : Nat}
    (h : Integer.scan? text = some (n, width)) :
    ∃ l : IntegerLiteral, l.chars = text.take width ∧ l.value = n := by
  unfold Integer.scan? at h
  split at h
  · next tail =>
    obtain ⟨⟨k, w⟩, hk, hpair⟩ := Option.map_eq_some_iff.1 h
    cases hpair
    obtain ⟨d, hd, rfl⟩ := Digits.exists_of_scanNat? hk
    exact ⟨⟨true, d⟩, congrArg ('-' :: ·) hd, rfl⟩
  · obtain ⟨⟨k, w⟩, hk, hpair⟩ := Option.map_eq_some_iff.1 h
    cases hpair
    obtain ⟨d, hd, rfl⟩ := Digits.exists_of_scanNat? hk
    exact ⟨⟨false, d⟩, hd, rfl⟩

/-- A point with digits behind it. -/
theorem Decimal.eq_point_cons {text : List Char} (h : Decimal.fractionDigits text ≠ []) :
    ∃ tail, text = '.' :: tail := by
  cases text with
  | nil => exact absurd rfl h
  | cons c tail =>
    by_cases hc : c = '.'
    · exact ⟨tail, hc ▸ rfl⟩
    · exact absurd (by simp [Decimal.fractionDigits, hc]) h

theorem Literal.exists_of_scan? {text : List Char} {d : Decimal} {width : Nat}
    (h : Decimal.scan? text = some (d, width)) :
    ∃ l : Literal, l.chars = text.take width ∧ l.decimal = d := by
  unfold Decimal.scan? at h
  dsimp only at h
  split at h
  · cases h
  · next hne =>
    cases h
    by_cases hf : Decimal.fractionDigits (afterDigits text) = []
    · -- A point without a digit behind it is left where it stands.
      refine ⟨⟨.leading text hne, none⟩, ?_, ?_⟩
      · show leadingDigits text ++ [] = _
        rw [if_pos hf, take_leadingDigits_add]
        rfl
      · rw [hf]
        rfl
    · obtain ⟨tail, htail⟩ := Decimal.eq_point_cons hf
      rw [htail] at hf ⊢
      refine ⟨⟨.leading text hne, some (.leading tail hf)⟩, ?_, rfl⟩
      show leadingDigits text ++ '.' :: leadingDigits tail = _
      rw [if_neg hf, take_leadingDigits_add, htail]
      show _ = _ ++ '.' :: tail.take (leadingDigits tail).length
      rw [take_length_leadingDigits]

/-- The layout of a decimal is a literal. -/
theorem Decimal.exists_literal (d : Decimal) :
    ∃ l : Literal, l.chars = d.positional ∧ l.decimal = d.spelledOut := by
  have hscan := d.scan?_positional_append Seam.nil.noDigitAhead rfl
  rw [List.append_nil] at hscan
  obtain ⟨l, hchars, hdecimal⟩ := Literal.exists_of_scan? hscan
  rw [List.take_length] at hchars
  exact ⟨l, hchars, hdecimal⟩

theorem exists_integer_of_exponent_scan? {text : List Char} {e : Exponent} {width : Nat}
    (h : Exponent.scan? text = some (e, width)) :
    ∃ n : IntegerLiteral, n.chars = text.take width ∧ Exponent.ofInt? n.value = some e := by
  obtain ⟨⟨k, w⟩, hscan, hmap⟩ := Option.bind_eq_some_iff.1 h
  obtain ⟨e', he', hpair⟩ := Option.map_eq_some_iff.1 hmap
  cases hpair
  obtain ⟨n, hn, rfl⟩ := IntegerLiteral.exists_of_scan? hscan
  exact ⟨n, hn, he'⟩

theorem exists_literal_of_coefficient_scan? {text : List Char} {c : Coefficient} {width : Nat}
    (h : Coefficient.scan? text = some (c, width)) :
    ∃ (l : Literal) (m : Magnitude),
      l.chars = text.take width ∧ l.magnitude? = some m ∧ c = .finite .plus m := by
  obtain ⟨⟨d, w⟩, hscan, hmap⟩ := Option.bind_eq_some_iff.1 h
  obtain ⟨m, hm, hpair⟩ := Option.map_eq_some_iff.1 hmap
  cases hpair
  obtain ⟨l, hl, rfl⟩ := Literal.exists_of_scan? hscan
  exact ⟨l, m, hl, hm, rfl⟩

/-- Behind the variable stands an exponent in range, or what stands there is not taken. -/
theorem scanExponent_cases (text : List Char) :
    Token.scanExponent text = (.one, 0) ∨
      ∃ n : IntegerLiteral, '^' :: n.chars = text.take (Token.scanExponent text).2 ∧
        Exponent.ofInt? n.value = some (Token.scanExponent text).1 := by
  rcases text with - | ⟨c, tail⟩
  · exact .inl rfl
  · by_cases hc : c = '^'
    · subst hc
      rw [Token.scanExponent_caret]
      cases hscan : Exponent.scan? tail with
      | none => exact .inl rfl
      | some p =>
        obtain ⟨e, w⟩ := p
        obtain ⟨n, hn, he⟩ := exists_integer_of_exponent_scan? hscan
        exact .inr ⟨n, congrArg ('^' :: ·) hn, he⟩
    · exact .inl (by simp [Token.scanExponent, hc])

/-- What is scanned at the variable has a form. -/
theorem PowerForm.exists_of_variable (text : List Char) :
    ∃ p : PowerForm, p.chars = ('x' :: text).take (Token.scanPower ('x' :: text)).2 ∧
      p.exponent? = some (Token.scanPower ('x' :: text)).1 := by
  rw [Token.scanPower_variable]
  rcases scanExponent_cases text with hnone | ⟨n, hchars, hvalue⟩
  · rw [hnone]
    exact ⟨plain, rfl, rfl⟩
  · exact ⟨raised n, congrArg ('x' :: ·) hchars, hvalue⟩

theorem scanPower_cases (text : List Char) :
    Token.scanPower text = (.zero, 0) ∨
      ∃ p : PowerForm, p.chars = text.take (Token.scanPower text).2 ∧
        p.exponent? = some (Token.scanPower text).1 := by
  rcases text with - | ⟨c, tail⟩
  · exact .inl rfl
  · by_cases hc : c = 'x'
    · subst hc
      exact .inr (PowerForm.exists_of_variable tail)
    · exact .inl (by simp [Token.scanPower, hc])

theorem Lexeme.exists_of_scanBare? {text : List Char} {t : Token} {width : Nat}
    (h : Token.scanBare? text = some (t, width)) :
    ∃ l : Lexeme, l.chars = text.take width ∧ l.token? = some t := by
  rcases text with - | ⟨c, tail⟩
  · cases h
  · by_cases hc : c = 'x'
    · subst hc
      obtain ⟨p, hchars, hvalue⟩ := PowerForm.exists_of_variable tail
      rw [Token.scanBare?_variable] at h
      cases h
      refine ⟨term (.bare p), hchars, ?_⟩
      show (p.exponent?.map _).map _ = _
      rw [hvalue]
      rfl
    · have hsign : (Sign.ofChar? c).map (fun s => (Token.operator s, 1)) = some (t, width) := by
        simpa [Token.scanBare?, hc] using h
      obtain ⟨s, hs, hpair⟩ := Option.map_eq_some_iff.1 hsign
      cases hpair
      rw [Sign.ofChar?_eq_some_iff.1 hs]
      exact ⟨operator s, rfl, rfl⟩

/-- **Whatever is scanned has a form with this value.** -/
theorem Lexeme.exists_of_scan? {text : List Char} {t : Token} {width : Nat}
    (h : Token.scan? text = some (t, width)) :
    ∃ l : Lexeme, l.chars = text.take width ∧ l.token? = some t := by
  cases hc : Coefficient.scan? text with
  | none =>
    rw [Token.scan?_of_no_coefficient hc] at h
    exact exists_of_scanBare? h
  | some q =>
    obtain ⟨c, w⟩ := q
    obtain ⟨l, m, hchars, hm, rfl⟩ := exists_literal_of_coefficient_scan? hc
    rw [Token.scan?_of_coefficient hc] at h
    cases h
    -- What stands behind the literal decides between its two forms.
    rcases scanPower_cases (text.drop w) with hnone | ⟨p, hpower, hvalue⟩
    · rw [hnone]
      refine ⟨term (.constant l), hchars, ?_⟩
      show (l.magnitude?.map _).map _ = _
      rw [hm]
      rfl
    · refine ⟨term (.scaled l p), ?_, ?_⟩
      · show l.chars ++ p.chars = _
        rw [hchars, hpower, List.take_add]
      · show (l.magnitude?.bind fun m => p.exponent?.map _).map _ = _
        rw [hm, hvalue]
        rfl

/-! ### Characters -/

theorem isTermChar_of_isDigit {c : Char} (h : c.isDigit = true) : isTermChar c = true := by
  simp [isTermChar, h]

/-- A term starts with a character of its own, so neither with a blank nor with a sign. -/
theorem TermForm.exists_cons (f : TermForm) :
    ∃ c tail, f.chars = c :: tail ∧ isTermChar c = true := by
  cases f with
  | constant l =>
    obtain ⟨c, tail, hchars, hdigit⟩ := l.exists_cons
    exact ⟨c, tail, hchars, isTermChar_of_isDigit hdigit⟩
  | scaled l p =>
    obtain ⟨c, tail, hchars, hdigit⟩ := l.exists_cons
    refine ⟨c, tail ++ p.chars, ?_, isTermChar_of_isDigit hdigit⟩
    rw [chars, hchars, List.cons_append]
  | bare p =>
    obtain ⟨tail, hchars⟩ := p.exists_cons
    exact ⟨'x', tail, hchars, rfl⟩

theorem Lexeme.chars_ne_nil (l : Lexeme) : l.chars ≠ [] := by
  cases l with
  | operator s => exact List.cons_ne_nil _ _
  | term f =>
    obtain ⟨c, tail, hchars, _⟩ := f.exists_cons
    rw [chars, hchars]
    exact List.cons_ne_nil _ _

/-- The characters of lexemes. -/
def isLexical (c : Char) : Bool := isTermChar c || c == '+' || c == '-'

theorem isLexical_of_isDigit {c : Char} (h : c.isDigit = true) : isLexical c = true := by
  simp [isLexical, isTermChar, h]

/-- They are ASCII. -/
theorem utf8Size_of_isLexical {c : Char} (h : isLexical c = true) : c.utf8Size = 1 := by
  simp only [isLexical, isTermChar, Char.isDigit, Bool.or_eq_true, Bool.and_eq_true, beq_iff_eq,
    decide_eq_true_eq] at h
  rw [Char.utf8Size_eq_one_iff]
  -- The digits end at a nine; the others are five characters.
  rcases h with (((((⟨_, hnine⟩ | rfl) | rfl) | rfl) | rfl) | rfl)
  · exact UInt32.le_trans hnine (by decide)
  all_goals decide

theorem Digits.isLexical_of_mem {d : Digits} {c : Char} (h : c ∈ d.chars) : isLexical c = true :=
  isLexical_of_isDigit (d.isDigit c h)

theorem IntegerLiteral.isLexical_of_mem {n : IntegerLiteral} {c : Char} (h : c ∈ n.chars) :
    isLexical c = true := by
  obtain ⟨negative, digits⟩ := n
  cases negative with
  | false => exact digits.isLexical_of_mem h
  | true =>
    rcases List.mem_cons.1 h with rfl | hmem
    · rfl
    · exact digits.isLexical_of_mem hmem

theorem Literal.isDigit_or_point_of_mem {l : Literal} {c : Char} (h : c ∈ l.chars) :
    c.isDigit = true ∨ c = '.' := by
  obtain ⟨whole, fraction⟩ := l
  rcases List.mem_append.1 h with hwhole | hfraction
  · exact .inl (whole.isDigit c hwhole)
  · cases fraction with
    | none => cases hfraction
    | some f =>
      rcases List.mem_cons.1 hfraction with hpoint | hmem
      · exact .inr hpoint
      · exact .inl (f.isDigit c hmem)

theorem Literal.isLexical_of_mem {l : Literal} {c : Char} (h : c ∈ l.chars) :
    isLexical c = true := by
  rcases l.isDigit_or_point_of_mem h with hdigit | rfl
  · exact isLexical_of_isDigit hdigit
  · rfl

theorem PowerForm.isLexical_of_mem {p : PowerForm} {c : Char} (h : c ∈ p.chars) :
    isLexical c = true := by
  cases p with
  | plain =>
    rw [List.mem_singleton.1 h]
    rfl
  | raised n =>
    rcases List.mem_cons.1 h with rfl | hcaret
    · rfl
    · rcases List.mem_cons.1 hcaret with rfl | hmem
      · rfl
      · exact n.isLexical_of_mem hmem

theorem Lexeme.isLexical_of_mem {l : Lexeme} {c : Char} (h : c ∈ l.chars) : isLexical c = true := by
  match l with
  | term (.constant l) => exact l.isLexical_of_mem h
  | term (.scaled l p) =>
    rcases List.mem_append.1 h with hl | hp
    · exact l.isLexical_of_mem hl
    · exact p.isLexical_of_mem hp
  | term (.bare p) => exact p.isLexical_of_mem h
  | operator s =>
    rw [List.mem_singleton.1 h]
    cases s
    · rfl
    · rfl

/-- Where another character stands, no token starts. -/
theorem Token.scan?_of_not_isLexical {c : Char} (h : isLexical c = false) (rest : List Char) :
    Token.scan? (c :: rest) = none := by
  cases hscan : Token.scan? (c :: rest) with
  | none => rfl
  | some p =>
    obtain ⟨t, width⟩ := p
    -- The token has a lexeme, and the character is the first one of it.
    obtain ⟨l, hchars, _⟩ := Lexeme.exists_of_scan? hscan
    obtain ⟨n, rfl⟩ := Nat.exists_eq_add_of_lt (Token.scan?_width hscan).1
    have hmem : c ∈ l.chars := by
      rw [hchars]
      exact .head _
    rw [l.isLexical_of_mem hmem] at h
    cases h

end PowerRule
