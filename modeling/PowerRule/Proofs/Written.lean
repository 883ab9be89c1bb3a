import PowerRule.Proofs.Spelling

/-!
Written polynomials: what the text of a polynomial spells.

A finite term that is not zero is written as its sign and its size, and these are the two tokens that
the text spells in front of any seam.  Signs are seams, so the terms of a polynomial do not disturb each
other:

    Spells (q.flatMap signedChars) (q.flatMap Term.tokens)

Only the first plus is left out, and the tokens put together the polynomial again with it or without it.

Main result: `Poly.parse_text_of_finite` (nothing is lost but zero terms).  What becomes of the other
polynomials is in `PowerRule.Proofs.Nonfinite`.
-/

namespace PowerRule

/-! ### Sign and size -/

namespace Coefficient

/-- The sign in front of a coefficient; what is not a number has none, and counts as plus. -/
def sign : Coefficient → Sign
  | finite s _ => s
  | infinite s => s
  | nan => .plus

theorem exists_finite {c : Coefficient} (h : c.isFinite = true) : ∃ s m, c = finite s m := by
  cases c with
  | finite s m => exact ⟨s, m, rfl⟩
  | infinite s => cases h
  | nan => cases h

end Coefficient

namespace Term

def sign (t : Term) : Sign := t.coefficient.sign

/-- The term without its sign. -/
def size (t : Term) : Term := t.signed t.sign

/-- The two tokens of a term. -/
def tokens (t : Term) : List Token := [.operator t.sign, .term t.size]

theorem signed_signed (s r : Sign) (t : Term) : (t.signed r).signed s = t.signed (s * r) := by
  unfold signed
  rw [Coefficient.signed_signed]

/-- A term is its size behind its sign. -/
@[simp] theorem size_signed_sign (t : Term) : t.size.signed t.sign = t := by
  rw [size, signed_signed, Sign.mul_self, signed_plus]

/-! ### The text of a size -/

theorem scanPower_powerChars_append (e : Exponent) {rest : List Char} (hr : Seam rest) :
    Token.scanPower (powerChars e ++ rest) = (e, (powerChars e).length) := by
  unfold powerChars
  split
  · next hzero =>
    rw [List.nil_append, hr.scanPower_eq, hzero]
    rfl
  · split
    · next hone =>
      show Token.scanPower ('x' :: rest) = _
      rw [Token.scanPower_variable, hr.scanExponent_eq, hone]
      rfl
    · show Token.scanPower ('x' :: '^' :: (e.chars ++ rest)) = _
      rw [Token.scanPower_variable, Token.scanExponent_caret,
        Exponent.scan?_chars_append e hr.noDigitAhead]
      rfl

/-- No literal goes on with a power or with what follows it. -/
theorem powerChars_append_ends (e : Exponent) {rest : List Char} (hr : Seam rest) :
    NoDigitAhead (powerChars e ++ rest) ∧ Decimal.fractionDigits (powerChars e ++ rest) = [] := by
  unfold powerChars
  split
  · exact ⟨hr.noDigitAhead, hr.fractionDigits_eq_nil⟩
  · split
    · exact ⟨noDigitAhead_variable _, rfl⟩
    · exact ⟨noDigitAhead_variable _, rfl⟩

/-- **A term without a sign is scanned as it was written.** -/
theorem scan?_chars_append (m : Magnitude) (e : Exponent) {rest : List Char} (hr : Seam rest) :
    Token.scan? ((⟨.finite .plus m, e⟩ : Term).chars ++ rest)
      = some (.term ⟨.finite .plus m, e⟩, (⟨.finite .plus m, e⟩ : Term).chars.length) := by
  obtain ⟨hdigit, hfraction⟩ := powerChars_append_ends e hr
  have hscan := Coefficient.scan?_chars_append m hdigit hfraction
  show Token.scan? ((Coefficient.finite .plus m).chars ++ powerChars e ++ rest)
    = some (_, ((Coefficient.finite .plus m).chars ++ powerChars e).length)
  rw [List.append_assoc, Token.scan?_of_coefficient hscan, List.drop_left,
    scanPower_powerChars_append e hr, List.length_append]

theorem size_finite (s : Sign) (m : Magnitude) (e : Exponent) :
    size ⟨.finite s m, e⟩ = ⟨.finite .plus m, e⟩ := by
  show (⟨.finite (s * s) m, e⟩ : Term) = _
  rw [Sign.mul_self]

theorem scan?_size_append {t : Term} (h : t.coefficient.isFinite = true) {rest : List Char}
    (hr : Seam rest) :
    Token.scan? (t.size.chars ++ rest) = some (.term t.size, t.size.chars.length) := by
  obtain ⟨c, e⟩ := t
  obtain ⟨s, m, rfl⟩ := Coefficient.exists_finite h
  rw [size_finite]
  exact scan?_chars_append m e hr

end Term

/-! ### How the text of a term starts -/

/-- All digits of a decimal stand behind a first one. -/
theorem Decimal.exists_positional_cons (d : Decimal) :
    ∃ c tail, d.positional = c :: tail ∧ c.isDigit = true := by
  obtain ⟨l, hchars, _⟩ := d.exists_literal
  rw [← hchars]
  exact l.exists_cons

theorem ne_plus_of_isDigit {c : Char} (h : c.isDigit = true) : c ≠ '+' := by
  rintro rfl
  cases h

/-- A coefficient is never written with a plus. -/
theorem Coefficient.exists_chars_cons (c : Coefficient) :
    ∃ d tail, c.chars = d :: tail ∧ d ≠ '+' := by
  cases c with
  | nan => exact ⟨'N', ['a', 'N'], rfl, by decide⟩
  | infinite s =>
    cases s with
    | plus => exact ⟨'i', ['n', 'f'], rfl, by decide⟩
    | minus => exact ⟨'-', infinityChars, rfl, by decide⟩
  | finite s m =>
    obtain ⟨d, tail, hdigits, hdigit⟩ := m.shortest.exists_positional_cons
    show ∃ _ _, (if m.isZero then [] else s.mark) ++ m.shortest.positional = _ ∧ _
    rw [hdigits]
    split
    · exact ⟨d, tail, rfl, ne_plus_of_isDigit hdigit⟩
    · cases s with
      | plus => exact ⟨d, tail, rfl, ne_plus_of_isDigit hdigit⟩
      | minus => exact ⟨'-', d :: tail, rfl, by decide⟩

/-! ### The text of a sum -/

namespace Poly

/-- A finite term that is not zero is written as its sign and its size. -/
theorem chars_eq {t : Term} (hfinite : t.coefficient.isFinite = true) (hzero : t.isZero = false) :
    t.chars = t.sign.mark ++ t.size.chars := by
  obtain ⟨c, e⟩ := t
  obtain ⟨s, m, rfl⟩ := Coefficient.exists_finite hfinite
  have hm : m.isZero = false := hzero
  cases s with
  | plus => rfl
  | minus =>
    show ((if m.isZero then [] else ['-']) ++ m.shortest.positional) ++ Term.powerChars e
      = '-' :: (((if m.isZero then [] else []) ++ m.shortest.positional) ++ Term.powerChars e)
    rw [hm]
    rfl

/-- In a sum the sign is always there. -/
theorem signedChars_eq {t : Term} (hfinite : t.coefficient.isFinite = true)
    (hzero : t.isZero = false) : signedChars t = t.sign.lexeme :: t.size.chars := by
  have hchars := chars_eq hfinite hzero
  obtain ⟨c, e⟩ := t
  obtain ⟨s, m, rfl⟩ := Coefficient.exists_finite hfinite
  have hm : m.isZero = false := hzero
  cases s with
  | plus =>
    show (if !m.isZero then _ else _) = _
    rw [hm]
    rfl
  | minus => exact hchars

/-- The first plus is left out, and nothing else. -/
theorem dropPlus_signedChars_append (t : Term) (rest : List Char) :
    dropPlus (signedChars t ++ rest) = t.chars ++ rest := by
  unfold signedChars
  split
  · rfl
  · obtain ⟨d, tail, hchars, hplus⟩ := t.coefficient.exists_chars_cons
    have htext : t.chars = d :: (tail ++ Term.powerChars t.exponent) := by
      rw [Term.chars, hchars, List.cons_append]
    rw [htext, List.cons_append]
    simp [dropPlus, hplus]

/-- All terms are finite, and none is zero. -/
def IsProper (q : Poly) : Prop := ∀ t ∈ q, t.coefficient.isFinite = true ∧ t.isZero = false

/-- A term that is not zero starts with its sign, or is not a number. -/
theorem seam_signedChars {t : Term} (h : t.isZero = false) (rest : List Char) :
    Seam (signedChars t ++ rest) := by
  obtain ⟨c, e⟩ := t
  cases c with
  | finite s m =>
    rw [signedChars_eq rfl h]
    exact Seam.lexeme s _
  | infinite s =>
    cases s
    · exact Seam.cons rfl _
    · exact Seam.cons rfl _
  | nan => exact Seam.cons rfl _

theorem seam_flatMap {q : Poly} (h : ∀ t ∈ q, t.isZero = false) :
    Seam (q.flatMap signedChars) := by
  cases q with
  | nil => exact Seam.nil
  | cons t q =>
    rw [List.flatMap_cons]
    exact seam_signedChars (h t (.head q)) _

end Poly

theorem Spells.size {t : Term} (hfinite : t.coefficient.isFinite = true) {rest : List Char}
    (hr : Seam rest) {tokens : List Token} (h : Spells rest tokens) :
    Spells (t.size.chars ++ rest) (.term t.size :: tokens) :=
  .cons 0 (Term.scan?_size_append hfinite hr) h

namespace Poly

/-- A sum spells the signs and sizes of its terms. -/
theorem spells_flatMap {q : Poly} (h : q.IsProper) :
    Spells (q.flatMap signedChars) (q.flatMap Term.tokens) := by
  induction q with
  | nil => exact .nil
  | cons t q ih =>
    obtain ⟨⟨hfinite, hzero⟩, hq⟩ := List.forall_mem_cons.1 h
    have hseam : Seam (q.flatMap signedChars) := seam_flatMap fun u hu => (hq u hu).2
    rw [List.flatMap_cons, List.flatMap_cons, signedChars_eq hfinite hzero]
    exact .operator t.sign (.size hfinite hseam (ih hq))

/-- The signs and sizes of its terms put a sum together. -/
theorem ofTokensAfter_tokens (t : Term) (q : Poly) :
    ofTokensAfter t.sign (.term t.size :: q.flatMap Term.tokens) = .ok (t :: q) := by
  induction q generalizing t with
  | nil =>
    show Except.ok [t.size.signed t.sign] = _
    rw [Term.size_signed_sign]
  | cons u q ih =>
    show (ofTokensAfter u.sign (.term u.size :: q.flatMap Term.tokens)).map
      (t.size.signed t.sign :: ·) = _
    rw [ih, Term.size_signed_sign]
    rfl

/-- The first plus can be left out. -/
theorem exists_spells_first {t : Term} {q : Poly} (h : IsProper (t :: q)) :
    ∃ tokens, Spells (t.chars ++ q.flatMap signedChars) tokens ∧
      ofTokens tokens = .ok (t :: q) := by
  obtain ⟨⟨hfinite, hzero⟩, hq⟩ := List.forall_mem_cons.1 h
  have hseam : Seam (q.flatMap signedChars) := seam_flatMap fun u hu => (hq u hu).2
  have hsize := Spells.size hfinite hseam (spells_flatMap hq)
  have hsum := ofTokensAfter_tokens t q
  rw [chars_eq hfinite hzero, List.append_assoc]
  cases hsign : t.sign with
  | plus =>
    rw [hsign] at hsum
    exact ⟨_, hsize, hsum⟩
  | minus =>
    rw [hsign] at hsum
    exact ⟨_, .operator .minus hsize, hsum⟩

/-! ### The text of a polynomial -/

/-- Without a term that is not zero the text is `0`. -/
theorem chars_of_nonzero_nil {p : Poly} (h : p.nonzero = []) : p.chars = ['0'] := by
  unfold chars
  rw [h]
  rfl

theorem chars_of_nonzero_cons {p q : Poly} {t : Term} (h : p.nonzero = t :: q) :
    p.chars = t.chars ++ q.flatMap signedChars := by
  have hne : t.chars ++ q.flatMap signedChars ≠ [] := by
    obtain ⟨d, tail, hchars, _⟩ := t.coefficient.exists_chars_cons
    rw [Term.chars, hchars]
    exact List.cons_ne_nil _ _
  unfold chars
  rw [h, List.flatMap_cons, dropPlus_signedChars_append]
  exact if_neg hne

theorem parse_text (p : Poly) : parse p.text = parseChars p.chars := by
  rw [parse, text, String.toList_ofList]

theorem isZero_of_mem_nonzero {p : Poly} {t : Term} (h : t ∈ p.nonzero) : t.isZero = false := by
  have hnot := (List.mem_filter.1 h).2
  rwa [Bool.not_eq_true'] at hnot

theorem isProper_nonzero {p : Poly} (h : ∀ t ∈ p, t.coefficient.isFinite = true) :
    p.nonzero.IsProper := by
  intro t ht
  exact ⟨h t (List.mem_filter.1 ht).1, isZero_of_mem_nonzero ht⟩

theorem nonzero_append (p q : Poly) : nonzero (p ++ q) = p.nonzero ++ q.nonzero :=
  List.filter_append ..

theorem chars_constant_zero : (Term.constant .zero).chars = ['0'] := by decide +kernel

/-- The text `0` is read as the constant zero. -/
theorem parseChars_zero : parseChars ['0'] = .ok [.constant .zero] := by
  have hscan := Term.scan?_chars_append .zero .zero Seam.nil
  have hspells : Spells ((Term.constant .zero).chars ++ []) [.term (.constant .zero)] :=
    .cons 0 hscan .nil
  rw [chars_constant_zero, List.append_nil] at hspells
  rw [parseChars_of_spells hspells]
  show Except.ok [(Term.constant .zero).signed .plus] = _
  rw [Term.signed_plus]

/-! ### Finite polynomials read back -/

/-- A finite polynomial is read back without its zero terms; a polynomial without other terms is read
back as the constant zero. -/
theorem parse_text_of_finite {p : Poly} (h : ∀ t ∈ p, t.coefficient.isFinite = true) :
    parse p.text = .ok (if p.nonzero = [] then [.constant .zero] else p.nonzero) := by
  rw [parse_text]
  cases hq : p.nonzero with
  | nil =>
    rw [chars_of_nonzero_nil hq, parseChars_zero]
    rfl
  | cons t q =>
    have hproper := isProper_nonzero h
    rw [hq] at hproper
    obtain ⟨tokens, hspells, htokens⟩ := exists_spells_first hproper
    rw [chars_of_nonzero_cons hq, parseChars_of_spells hspells, htokens]
    rfl

/-- **Writing and reading lose nothing but zero terms.**  The coefficients come back as they are, and
the exponents and the order with them; a polynomial of zero terms alone is written as `0`. -/
theorem parse_text_eq_filter (p : Poly) (h : ∀ t ∈ p, t.coefficient.isFinite = true) :
    ((∃ t ∈ p, t.isZero = false) → parse p.text = .ok (p.filter fun t => !t.isZero)) ∧
      ((∀ t ∈ p, t.isZero = true) →
        p.text = "0" ∧ parse p.text = .ok [⟨.finite .plus .zero, .zero⟩]) := by
  have hparse := parse_text_of_finite h
  constructor
  · rintro ⟨t, ht, hzero⟩
    have hmem : t ∈ p.nonzero := List.mem_filter.2 ⟨ht, by rw [hzero]; rfl⟩
    rw [hparse, if_neg (List.ne_nil_of_mem hmem)]
    rfl
  · intro hall
    have hnil : p.nonzero = [] := by
      refine List.filter_eq_nil_iff.2 ?_
      intro t ht
      simp [hall t ht]
    rw [hparse, if_pos hnil]
    refine ⟨?_, rfl⟩
    rw [text, chars_of_nonzero_nil hnil]

/-- The least magnitude but zero and the greatest one, a zero with a minus, and both ends of the
exponents. -/
def extremes : Poly :=
  [⟨.finite .minus ⟨1, by decide +kernel, by decide +kernel⟩, .least⟩,
    ⟨.finite .minus .zero, .one⟩,
    ⟨.finite .plus ⟨(2 ^ (53 : Nat) - 1) * 2 ^ (2045 : Nat), by decide +kernel, by decide +kernel⟩,
      .greatest⟩]

/-- Both zeros, and no other terms. -/
def zeros : Poly := [⟨.finite .minus .zero, .least⟩, ⟨.finite .plus .zero, .zero⟩]

theorem parse_text_extremes :
    ((∀ t ∈ extremes, t.coefficient.isFinite = true) ∧ (∃ t ∈ extremes, t.isZero = false) ∧
      parse extremes.text = .ok (extremes.filter fun t => !t.isZero)) ∧
    ((∀ t ∈ zeros, t.coefficient.isFinite = true) ∧ (∀ t ∈ zeros, t.isZero = true) ∧
      zeros.text = "0" ∧ parse zeros.text = .ok [⟨.finite .plus .zero, .zero⟩]) := by
  have hfinite : ∀ t ∈ extremes, t.coefficient.isFinite = true := by decide +kernel
  have hsome : ∃ t ∈ extremes, t.isZero = false := by decide +kernel
  have hfinite' : ∀ t ∈ zeros, t.coefficient.isFinite = true := by decide +kernel
  have hnone : ∀ t ∈ zeros, t.isZero = true := by decide +kernel
  refine ⟨⟨hfinite, hsome, ?_⟩, hfinite', hnone, ?_⟩
  · exact (parse_text_eq_filter extremes hfinite).1 hsome
  · exact (parse_text_eq_filter zeros hfinite').2 hnone

end Poly

end PowerRule
