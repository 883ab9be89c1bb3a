import Mathlib.Data.List.Forall2
import PowerRule.Proofs.Lexeme
import PowerRule.Proofs.Nearest

/-!
What forms write, in numbers.

A literal writes a rational number, the digits before the point and those behind it as a fraction, and an
exponent writes an integer.  A form writes a term when its parts are in range,

    l.value < 2 ^ 1024 - 2 ^ 970        -(2 ^ 63) ≤ p.value < 2 ^ 63

and then the coefficient is the magnitude nearest to the first number, behind the sign that stands before
the form, and the exponent is the second number.

`Denotes` says this without any of the operations that read a text, and the lemmas `denotes_iff` say that
it is what they compute.
-/

namespace PowerRule

theorem ofDigits_append (digits more : List Char) :
    ofDigits (digits ++ more) = ofDigits digits * 10 ^ more.length + ofDigits more := by
  unfold ofDigits
  rw [Nat.ofDigitChars_append, Nat.ofDigitChars_eq_ofDigitChars_zero, Nat.mul_comm]

/-! ### Literals -/

namespace Literal

/-- The number that a literal writes. -/
def value (l : Literal) : ℚ :=
  ofDigits l.whole.chars + ofDigits l.fractionChars / 10 ^ l.fractionChars.length

/-- It is the number that the decimal is. -/
theorem value_decimal (l : Literal) : l.decimal.value = l.value := by
  have hpos : (0 : ℚ) < 10 ^ l.fractionChars.length := by positivity
  rw [decimal, Decimal.value, value, ofDigits_append, zpow_neg, zpow_natCast, ← div_eq_mul_inv]
  rw [Nat.cast_add, Nat.cast_mul, Nat.cast_pow, Nat.cast_ofNat, add_div,
    mul_div_cancel_right₀ _ hpos.ne']

theorem value_nonneg (l : Literal) : 0 ≤ l.value := by
  unfold value
  positivity

/-- The number rounds to a finite one. -/
def InRange (l : Literal) : Prop := l.value < 2 ^ (1024 : ℕ) - 2 ^ (970 : ℕ)

/-- The coefficient that a literal writes behind this sign. -/
def Denotes (l : Literal) (s : Sign) (c : Coefficient) : Prop :=
  ∃ m : Magnitude, c = .finite s m ∧ l.InRange ∧ m.IsNearest l.value

theorem isNearest_of_magnitude? {l : Literal} {m : Magnitude} (h : l.magnitude? = some m) :
    m.IsNearest l.value := by
  rw [← value_decimal]
  exact Magnitude.isNearest_of_ofDecimal? h

theorem magnitude?_eq_none_iff (l : Literal) :
    l.magnitude? = none ↔ (2 ^ (1024 : ℕ) - 2 ^ (970 : ℕ) : ℚ) ≤ l.value := by
  rw [← value_decimal]
  exact Magnitude.ofDecimal?_eq_none_iff l.decimal

theorem magnitude?_eq_none_iff_not_inRange (l : Literal) : l.magnitude? = none ↔ ¬ l.InRange := by
  rw [magnitude?_eq_none_iff, InRange, not_lt]

theorem InRange.exists_magnitude? {l : Literal} (h : l.InRange) : ∃ m, l.magnitude? = some m := by
  apply Option.ne_none_iff_exists'.1
  intro hnone
  exact l.magnitude?_eq_none_iff_not_inRange.1 hnone h

/-- What is read is what is denoted. -/
theorem magnitude?_eq_some_iff {l : Literal} {m : Magnitude} :
    l.magnitude? = some m ↔ l.InRange ∧ m.IsNearest l.value := by
  constructor
  · intro h
    refine ⟨?_, isNearest_of_magnitude? h⟩
    by_contra hrange
    rw [l.magnitude?_eq_none_iff_not_inRange.2 hrange] at h
    cases h
  · rintro ⟨hrange, hnear⟩
    obtain ⟨n, hn⟩ := hrange.exists_magnitude?
    rw [hn, (isNearest_of_magnitude? hn).eq hnear]

end Literal

/-! ### Powers -/

namespace PowerForm

/-- The number in the exponent, which is one if none is written. -/
def value : PowerForm → Int
  | plain => 1
  | raised n => n.value

/-- The exponent is an integer of 64 bits. -/
def InRange (p : PowerForm) : Prop :=
  -9223372036854775808 ≤ p.value ∧ p.value ≤ 9223372036854775807

instance (p : PowerForm) : Decidable p.InRange := inferInstanceAs (Decidable (_ ∧ _))

/-- Exponents have 64 bits, so one that is equal to the number is in range. -/
theorem exponent?_eq_some_iff {p : PowerForm} {e : Exponent} :
    p.exponent? = some e ↔ e.val = p.value := by
  cases p with
  | plain =>
    rw [exponent?, Option.some.injEq, Exponent.ext_iff]
    exact eq_comm
  | raised n =>
    rw [exponent?, Exponent.ofInt?_eq_some_iff]
    exact eq_comm

theorem InRange.exists_exponent? {p : PowerForm} (h : p.InRange) : ∃ e, p.exponent? = some e :=
  ⟨⟨p.value, h.1, h.2⟩, exponent?_eq_some_iff.2 rfl⟩

theorem exponent?_eq_none_of_not_inRange {p : PowerForm} (h : ¬ p.InRange) :
    p.exponent? = none := by
  rw [Option.eq_none_iff_forall_ne_some]
  intro e he
  have hvalue := exponent?_eq_some_iff.1 he
  exact h ⟨hvalue ▸ e.le_val, hvalue ▸ e.val_le⟩

end PowerForm

/-! ### Terms -/

theorem Magnitude.value_one : one.value = 1 := by
  have hpos : (0 : ℚ) < 2 ^ (1074 : ℕ) := by positivity
  rw [value, one, cast_unitsPerOne, div_self hpos.ne']

theorem Term.signed_finite (s : Sign) (m : Magnitude) (e : Exponent) :
    (⟨.finite .plus m, e⟩ : Term).signed s = ⟨.finite s m, e⟩ := by
  rw [signed, Coefficient.signed, Sign.mul_plus]

namespace TermForm

/-- The term that a form writes behind this sign.  A coefficient that is not written is one, and an
exponent that is not written is one behind the variable and zero without it. -/
def Denotes (s : Sign) (t : Term) : TermForm → Prop
  | constant l => l.Denotes s t.coefficient ∧ t.exponent.val = 0
  | scaled l p => l.Denotes s t.coefficient ∧ t.exponent.val = p.value
  | bare p => (∃ m : Magnitude, t.coefficient = .finite s m ∧ m.value = 1) ∧
      t.exponent.val = p.value

/-- The coefficient rounds to a finite number, if one is written. -/
def CoefficientInRange : TermForm → Prop
  | constant l => l.InRange
  | scaled l _ => l.InRange
  | bare _ => True

/-- The exponent has 64 bits, if one is written. -/
def ExponentInRange : TermForm → Prop
  | constant _ => True
  | scaled _ p => p.InRange
  | bare p => p.InRange

/-- **A form writes the term that it is read as, with the sign before it.** -/
theorem denotes_iff {f : TermForm} {s : Sign} {t : Term} :
    f.Denotes s t ↔ f.term?.map (Term.signed s) = some t := by
  obtain ⟨c, e⟩ := t
  rw [Option.map_eq_some_iff]
  -- A term is read with a plus, and what is denoted has the sign that is put on afterwards.
  cases f with
  | constant l =>
    constructor
    · rintro ⟨⟨m, rfl, hm⟩, he⟩
      refine ⟨⟨.finite .plus m, .zero⟩, ?_, ?_⟩
      · rw [term?, Literal.magnitude?_eq_some_iff.2 hm, Option.map_some]
      · rw [Term.signed_finite]
        exact Term.ext rfl (Exponent.ext he.symm)
    · rintro ⟨u, hu, hsigned⟩
      obtain ⟨m, hm, rfl⟩ := Option.map_eq_some_iff.1 hu
      cases (Term.signed_finite s m .zero).symm.trans hsigned
      exact ⟨⟨m, rfl, Literal.magnitude?_eq_some_iff.1 hm⟩, rfl⟩
  | scaled l p =>
    constructor
    · rintro ⟨⟨m, rfl, hm⟩, he⟩
      refine ⟨⟨.finite .plus m, e⟩, ?_, Term.signed_finite s m e⟩
      rw [term?, Literal.magnitude?_eq_some_iff.2 hm, PowerForm.exponent?_eq_some_iff.2 he,
        Option.bind_some, Option.map_some]
    · rintro ⟨u, hu, hsigned⟩
      obtain ⟨m, hm, hp⟩ := Option.bind_eq_some_iff.1 hu
      obtain ⟨e', he, rfl⟩ := Option.map_eq_some_iff.1 hp
      cases (Term.signed_finite s m e').symm.trans hsigned
      exact ⟨⟨m, rfl, Literal.magnitude?_eq_some_iff.1 hm⟩, PowerForm.exponent?_eq_some_iff.1 he⟩
  | bare p =>
    constructor
    · rintro ⟨⟨m, rfl, hm⟩, he⟩
      refine ⟨⟨.one, e⟩, ?_, ?_⟩
      · rw [term?, PowerForm.exponent?_eq_some_iff.2 he, Option.map_some]
      · rw [Magnitude.value_injective (hm.trans Magnitude.value_one.symm)]
        exact Term.signed_finite s .one e
    · rintro ⟨u, hu, hsigned⟩
      obtain ⟨e', he, rfl⟩ := Option.map_eq_some_iff.1 hu
      cases (Term.signed_finite s .one e').symm.trans hsigned
      exact ⟨⟨.one, rfl, Magnitude.value_one⟩, PowerForm.exponent?_eq_some_iff.1 he⟩

theorem denotes_plus_iff {f : TermForm} {t : Term} : f.Denotes .plus t ↔ f.term? = some t := by
  rw [denotes_iff, show Term.signed .plus = id from funext Term.signed_plus, Option.map_id_fun, id]

end TermForm

/-! ### Lexemes -/

namespace Lexeme

/-- The token that a lexeme writes. -/
def Denotes (t : Token) : Lexeme → Prop
  | term f => ∃ u, t = .term u ∧ f.Denotes .plus u
  | operator s => t = .operator s

theorem denotes_iff {l : Lexeme} {t : Token} : l.Denotes t ↔ l.token? = some t := by
  cases l with
  | operator s =>
    rw [token?, Option.some.injEq]
    exact eq_comm
  | term f =>
    rw [token?, Option.map_eq_some_iff]
    constructor
    · rintro ⟨u, rfl, hu⟩
      exact ⟨u, TermForm.denotes_plus_iff.1 hu, rfl⟩
    · rintro ⟨u, hu, rfl⟩
      exact ⟨u, rfl, TermForm.denotes_plus_iff.2 hu⟩

def CoefficientInRange : Lexeme → Prop
  | term f => f.CoefficientInRange
  | operator _ => True

def ExponentInRange : Lexeme → Prop
  | term f => f.ExponentInRange
  | operator _ => True

end Lexeme

end PowerRule
