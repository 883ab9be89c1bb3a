import PowerRule.Proofs.Meaning
import PowerRule.Proofs.Spelling

/-!
The texts of polynomials, as a grammar.

With `w` for a run of blanks, `s` for a sign and `t` for one of the five forms of a term, the texts are

    w [s w] t (w s w t)*

and nothing may stand behind the last term, not even a blank.  A `SumForm` is one way to read a text
like this; it is well formed by its type, and it denotes a polynomial when all its terms are in range.
Each term is denoted behind the sign right before it.

Main statements, all put together in `parse_eq_ok_iff_form`:

* a text is read exactly when it has such a form that denotes a polynomial, and then as this polynomial
  (`exists_form_of_parseChars`, `parseChars_of_form`, `SumForm.denotes_iff`);
* no text has two forms, whatever they denote (`SumForm.chars_injective`).
-/

namespace PowerRule

/-! ### Forms of sums -/

/-- A term behind its sign, with the blanks around the sign. -/
structure SignedForm where
  before : Nat
  sign : Sign
  after : Nat
  form : TermForm

/-- A sum of terms; its first sign may be left out. -/
structure SumForm where
  blanks : Nat
  /-- The first sign and the blanks behind it. -/
  sign : Option (Sign × Nat)
  first : TermForm
  others : List SignedForm

namespace SignedForm

def chars (a : SignedForm) : List Char :=
  spaces a.before ++ a.sign.lexeme :: (spaces a.after ++ a.form.chars)

/-- The term, with the sign before it. -/
def term? (a : SignedForm) : Option Term := a.form.term?.map (Term.signed a.sign)

end SignedForm

namespace SumForm

def signChars (f : SumForm) : List Char := f.sign.elim [] fun (s, n) => s.lexeme :: spaces n

/-- The first sign; if none is written it is plus. -/
def firstSign (f : SumForm) : Sign := f.sign.elim .plus Prod.fst

def chars (f : SumForm) : List Char :=
  spaces f.blanks ++ (f.signChars ++ (f.first.chars ++ f.others.flatMap SignedForm.chars))

/-- The terms in their order, if all of them have values. -/
def poly? (f : SumForm) : Option Poly :=
  f.first.term?.bind fun t =>
    (f.others.mapM SignedForm.term?).map fun q => t.signed f.firstSign :: q

/-- The forms of the terms in their order, each with the sign right before it. -/
def signedTerms (f : SumForm) : List (Sign × TermForm) :=
  (f.firstSign, f.first) :: f.others.map fun a => (a.sign, a.form)

/-- There is one term for each form, and it is what this form writes behind its sign. -/
def Denotes (f : SumForm) (p : Poly) : Prop :=
  List.Forall₂ (fun (a : Sign × TermForm) t => a.2.Denotes a.1 t) f.signedTerms p

end SumForm

/-! ### The polynomial that is denoted -/

theorem SignedForm.mapM_term?_eq_some_iff {others : List SignedForm} {q : Poly} :
    others.mapM term? = some q ↔
      List.Forall₂ (fun (a : Sign × TermForm) t => a.2.Denotes a.1 t)
        (others.map fun a => (a.sign, a.form)) q := by
  induction others generalizing q with
  | nil =>
    rw [List.mapM_nil, List.map_nil, List.forall₂_nil_left_iff]
    exact ⟨fun h => (Option.some.inj h).symm, fun h => congrArg some h.symm⟩
  | cons a others ih =>
    rw [List.mapM_cons, List.map_cons, List.forall₂_cons_left_iff]
    constructor
    · intro h
      obtain ⟨t, ht, hq⟩ := Option.bind_eq_some_iff.1 h
      obtain ⟨q', hq', heq⟩ := Option.bind_eq_some_iff.1 hq
      cases heq
      exact ⟨t, q', TermForm.denotes_iff.2 ht, ih.1 hq', rfl⟩
    · rintro ⟨t, q', ht, hq', rfl⟩
      rw [ih.2 hq', term?, TermForm.denotes_iff.1 ht]
      rfl

/-- **A form has a polynomial exactly when it denotes it.** -/
theorem SumForm.denotes_iff {f : SumForm} {p : Poly} : f.Denotes p ↔ f.poly? = some p := by
  rw [Denotes, signedTerms, List.forall₂_cons_left_iff]
  constructor
  · rintro ⟨t, q, ht, hq, rfl⟩
    obtain ⟨u, hu, rfl⟩ := Option.map_eq_some_iff.1 (TermForm.denotes_iff.1 ht)
    rw [poly?, hu, Option.bind_some, SignedForm.mapM_term?_eq_some_iff.2 hq]
    rfl
  · intro h
    obtain ⟨u, hu, hothers⟩ := Option.bind_eq_some_iff.1 h
    obtain ⟨q, hq, rfl⟩ := Option.map_eq_some_iff.1 hothers
    refine ⟨u.signed f.firstSign, q, TermForm.denotes_iff.2 ?_,
      SignedForm.mapM_term?_eq_some_iff.1 hq, rfl⟩
    rw [hu, Option.map_some]

/-! ### How the parts start -/

theorem TermForm.head?_append_ne (f : TermForm) {c : Char} (hc : isTermChar c = false)
    (rest : List Char) : (f.chars ++ rest).head? ≠ some c := by
  obtain ⟨d, tail, hchars, hd⟩ := f.exists_cons
  intro hhead
  rw [hchars] at hhead
  cases hhead
  rw [hc] at hd
  cases hd

theorem Seam.spaces {n : Nat} {rest : List Char} (h : Seam rest) : Seam (spaces n ++ rest) := by
  cases n with
  | zero => exact h
  | succ n => exact Seam.cons rfl _

theorem SignedForm.chars_append (a : SignedForm) (rest : List Char) :
    a.chars ++ rest
      = spaces a.before ++ a.sign.lexeme :: (spaces a.after ++ (a.form.chars ++ rest)) := by
  rw [chars]
  simp only [List.append_assoc, List.cons_append]

theorem seam_others (others : List SignedForm) : Seam (others.flatMap SignedForm.chars) := by
  cases others with
  | nil => exact Seam.nil
  | cons a others =>
    rw [List.flatMap_cons, SignedForm.chars_append]
    exact Seam.spaces (Seam.lexeme a.sign _)

/-! ### From a text to its form -/

namespace Spells

/-- The first of some tokens, with its blanks and what follows it. -/
theorem exists_lexeme {text : List Char} {t : Token} {tokens : List Token}
    (h : Spells text (t :: tokens)) :
    ∃ n l rest, text = spaces n ++ (Lexeme.chars l ++ rest) ∧ l.token? = some t ∧
      Spells rest tokens := by
  cases h with
  | @cons n lexeme rest _ _ hscan htail =>
    obtain ⟨l, hchars, hvalue⟩ := Lexeme.exists_of_scan? hscan
    rw [List.take_left] at hchars
    exact ⟨n, l, rest, by rw [hchars], hvalue, htail⟩

theorem exists_term {text : List Char} {t : Term} {tokens : List Token}
    (h : Spells text (.term t :: tokens)) :
    ∃ n f rest, text = spaces n ++ (TermForm.chars f ++ rest) ∧ f.term? = some t ∧
      Spells rest tokens := by
  obtain ⟨n, l, rest, htext, hvalue, htail⟩ := h.exists_lexeme
  cases l with
  | term f =>
    obtain ⟨u, hu, heq⟩ := Option.map_eq_some_iff.1 hvalue
    cases heq
    exact ⟨n, f, rest, htext, hu, htail⟩
  | operator s => cases hvalue

theorem exists_operator {text : List Char} {s : Sign} {tokens : List Token}
    (h : Spells text (.operator s :: tokens)) :
    ∃ n rest, text = spaces n ++ s.lexeme :: rest ∧ Spells rest tokens := by
  obtain ⟨n, l, rest, htext, hvalue, htail⟩ := h.exists_lexeme
  cases l with
  | term f =>
    obtain ⟨u, _, heq⟩ := Option.map_eq_some_iff.1 hvalue
    cases heq
  | operator r =>
    cases hvalue
    exact ⟨n, rest, htext, htail⟩

end Spells

namespace Poly

/-- Behind a sign there are blanks, a term, and more terms with their signs. -/
theorem exists_form_of_ofTokensAfter {s : Sign} {tokens : List Token} {p : Poly}
    (h : ofTokensAfter s tokens = .ok p) {text : List Char} (hspells : Spells text tokens) :
    ∃ (n : Nat) (f : TermForm) (others : List SignedForm) (t : Term) (q : Poly),
      text = spaces n ++ (f.chars ++ others.flatMap SignedForm.chars) ∧
        f.term? = some t ∧ others.mapM SignedForm.term? = some q ∧ p = t.signed s :: q := by
  induction s, tokens using ofTokensAfter.induct generalizing p text with
  | case1 s => cases h
  | case2 s r tokens => cases h
  | case3 s t =>
    cases h
    obtain ⟨n, f, rest, htext, hvalue, htail⟩ := hspells.exists_term
    cases htail
    exact ⟨n, f, [], t, [], htext, hvalue, rfl, rfl⟩
  | case4 s t r tokens ih =>
    -- The tokens behind the operator have a form by induction; it becomes the next signed form.
    obtain ⟨p', htokens, rfl⟩ := exists_of_map_eq_ok h
    obtain ⟨n, f, rest, htext, hvalue, htail⟩ := hspells.exists_term
    obtain ⟨before, rest', hrest, htail'⟩ := htail.exists_operator
    obtain ⟨after, g, others, u, q, hrest', hu, hq, rfl⟩ := ih htokens htail'
    refine ⟨n, f, ⟨before, r, after, g⟩ :: others, t, u.signed r :: q, ?_, hvalue, ?_, rfl⟩
    · rw [htext, hrest, hrest', List.flatMap_cons, SignedForm.chars_append]
    · rw [List.mapM_cons, hq, SignedForm.term?, hu]
      rfl
  | case5 s t u tokens => cases h

/-- Whatever is read has a form. -/
theorem exists_form_of_parseChars {text : List Char} {p : Poly} (h : parseChars text = .ok p) :
    ∃ f : SumForm, f.chars = text ∧ f.poly? = some p := by
  obtain ⟨tokens, hspells, htokens⟩ := exists_spells_of_parseChars h
  match tokens, hspells, htokens with
  | .operator s :: tokens, hspells, htokens =>
    obtain ⟨blanks, rest, rfl, htail⟩ := hspells.exists_operator
    obtain ⟨n, f, others, t, q, rfl, ht, hq, rfl⟩ := exists_form_of_ofTokensAfter htokens htail
    refine ⟨⟨blanks, some (s, n), f, others⟩, rfl, ?_⟩
    rw [SumForm.poly?, ht, Option.bind_some, hq]
    rfl
  | .term u :: tokens, hspells, htokens =>
    obtain ⟨n, f, others, t, q, rfl, ht, hq, rfl⟩ := exists_form_of_ofTokensAfter htokens hspells
    refine ⟨⟨n, none, f, others⟩, rfl, ?_⟩
    rw [SumForm.poly?, ht, Option.bind_some, hq]
    rfl
  | [], hspells, htokens => cases htokens

end Poly

/-! ### From a form to its polynomial -/

namespace Poly

/-- A form behind a sign spells the tokens of its terms. -/
theorem exists_spells_of_forms {f : TermForm} {t : Term} (ht : f.term? = some t)
    {others : List SignedForm} {q : Poly} (hq : others.mapM SignedForm.term? = some q) (s : Sign) :
    ∃ tokens, Spells (f.chars ++ others.flatMap SignedForm.chars) (.term t :: tokens) ∧
      ofTokensAfter s (.term t :: tokens) = .ok (t.signed s :: q) := by
  -- The first of the signed forms becomes the term behind the sign in the induction hypothesis.
  induction others generalizing f t q s with
  | nil =>
    cases hq
    exact ⟨[], .term ht Seam.nil .nil, rfl⟩
  | cons a others ih =>
    rw [List.mapM_cons] at hq
    obtain ⟨u, hu, hq⟩ := Option.bind_eq_some_iff.1 hq
    obtain ⟨q', hq', heq⟩ := Option.bind_eq_some_iff.1 hq
    cases heq
    obtain ⟨v, hv, rfl⟩ := Option.map_eq_some_iff.1 hu
    obtain ⟨tokens, hspells, htokens⟩ := ih hv hq' a.sign
    have hsigned := Spells.spaces_append a.before
      (Spells.operator a.sign (hspells.spaces_append a.after))
    have hchars : (a :: others).flatMap SignedForm.chars = spaces a.before ++ a.sign.lexeme ::
        (spaces a.after ++ (a.form.chars ++ others.flatMap SignedForm.chars)) := by
      rw [List.flatMap_cons, SignedForm.chars_append]
    rw [← hchars] at hsigned
    refine ⟨_, .term ht (seam_others (a :: others)) hsigned, ?_⟩
    rw [ofTokensAfter, htokens]
    rfl

/-- A form with a polynomial is read as it. -/
theorem parseChars_of_form {f : SumForm} {p : Poly} (h : f.poly? = some p) :
    parseChars f.chars = .ok p := by
  obtain ⟨blanks, sign, first, others⟩ := f
  obtain ⟨t, ht, h⟩ := Option.bind_eq_some_iff.1 h
  obtain ⟨q, hq, rfl⟩ := Option.map_eq_some_iff.1 h
  cases sign with
  | none =>
    obtain ⟨tokens, hspells, htokens⟩ := exists_spells_of_forms ht hq .plus
    refine (parseChars_of_spells (hspells.spaces_append blanks)).trans ?_
    show (ofTokensAfter .plus (.term t :: tokens)).mapError _ = _
    rw [htokens]
    rfl
  | some p =>
    obtain ⟨s, n⟩ := p
    obtain ⟨tokens, hspells, htokens⟩ := exists_spells_of_forms ht hq s
    have hsigned := Spells.spaces_append blanks (Spells.operator s (hspells.spaces_append n))
    refine (parseChars_of_spells hsigned).trans ?_
    show (ofTokensAfter s (.term t :: tokens)).mapError _ = _
    rw [htokens]
    rfl

end Poly

/-! ### No text has two forms -/

theorem Digits.chars_append_inj {d d' : Digits} {rest rest' : List Char} (hr : NoDigitAhead rest)
    (hr' : NoDigitAhead rest') (h : d.chars ++ rest = d'.chars ++ rest') : d = d' ∧ rest = rest' := by
  have hleading := congrArg leadingDigits h
  have hafter := congrArg afterDigits h
  rw [leadingDigits_append d.isDigit hr, leadingDigits_append d'.isDigit hr'] at hleading
  rw [afterDigits_append d.isDigit hr, afterDigits_append d'.isDigit hr'] at hafter
  exact ⟨Digits.ext hleading, hafter⟩

theorem IntegerLiteral.chars_append_inj {n n' : IntegerLiteral} {rest rest' : List Char}
    (hr : NoDigitAhead rest) (hr' : NoDigitAhead rest')
    (h : n.chars ++ rest = n'.chars ++ rest') : n = n' ∧ rest = rest' := by
  have hminus : ∀ (d : Digits) (left right : List Char), d.chars ++ left ≠ '-' :: right := by
    intro d left right heq
    obtain ⟨c, tail, hchars, hdigit⟩ := d.exists_cons
    rw [hchars] at heq
    cases heq
    cases hdigit
  obtain ⟨negative, digits⟩ := n
  obtain ⟨negative', digits'⟩ := n'
  cases negative with
  | false =>
    cases negative' with
    | false =>
      obtain ⟨rfl, hrest⟩ := Digits.chars_append_inj hr hr' h
      exact ⟨rfl, hrest⟩
    | true => exact absurd h (hminus _ _ _)
  | true =>
    cases negative' with
    | false => exact absurd h.symm (hminus _ _ _)
    | true =>
      obtain ⟨rfl, hrest⟩ := Digits.chars_append_inj hr hr' (List.cons.inj h).2
      exact ⟨rfl, hrest⟩

/-- What a literal cannot go on with. -/
def EndsLiteral (rest : List Char) : Prop := NoDigitAhead rest ∧ Decimal.fractionDigits rest = []

theorem Literal.chars_append_inj {l l' : Literal} {rest rest' : List Char} (hr : EndsLiteral rest)
    (hr' : EndsLiteral rest') (h : l.chars ++ rest = l'.chars ++ rest') : l = l' ∧ rest = rest' := by
  -- Behind the digits before the point there is no digit, whether a fraction follows or not.
  have hahead : ∀ (fraction : Option Digits) {left : List Char}, EndsLiteral left →
      NoDigitAhead ((fraction.elim [] fun f => '.' :: f.chars) ++ left) := by
    intro fraction left hleft
    cases fraction with
    | none => exact hleft.1
    | some f => exact Decimal.noDigitAhead_point _
  have hpoint : ∀ (f : Digits) {left right : List Char}, EndsLiteral left → NoDigitAhead right →
      left ≠ '.' :: (f.chars ++ right) := by
    rintro f left right ⟨_, hfraction⟩ hright rfl
    have hdigits : leadingDigits (f.chars ++ right) = [] := hfraction
    rw [leadingDigits_append f.isDigit hright] at hdigits
    exact f.ne_nil hdigits
  obtain ⟨whole, fraction⟩ := l
  obtain ⟨whole', fraction'⟩ := l'
  rw [chars, chars, List.append_assoc, List.append_assoc] at h
  obtain ⟨rfl, htail⟩ := Digits.chars_append_inj (hahead fraction hr) (hahead fraction' hr') h
  cases fraction with
  | none =>
    cases fraction' with
    | none => exact ⟨rfl, htail⟩
    | some f => exact absurd htail (hpoint f hr hr'.1)
  | some f =>
    cases fraction' with
    | none => exact absurd htail.symm (hpoint f hr' hr.1)
    | some f' =>
      obtain ⟨rfl, hrest⟩ := Digits.chars_append_inj hr.1 hr'.1 (List.cons.inj htail).2
      exact ⟨rfl, hrest⟩

theorem Seam.endsLiteral {rest : List Char} (h : Seam rest) : EndsLiteral rest :=
  ⟨h.noDigitAhead, h.fractionDigits_eq_nil⟩

theorem PowerForm.endsLiteral (p : PowerForm) (rest : List Char) :
    EndsLiteral (p.chars ++ rest) := by
  obtain ⟨tail, hchars⟩ := p.exists_cons
  rw [hchars]
  exact ⟨noDigitAhead_variable _, rfl⟩

theorem PowerForm.chars_append_inj {p p' : PowerForm} {rest rest' : List Char} (hr : Seam rest)
    (hr' : Seam rest') (h : p.chars ++ rest = p'.chars ++ rest') : p = p' ∧ rest = rest' := by
  cases p with
  | plain =>
    cases p' with
    | plain => exact ⟨rfl, (List.cons.inj h).2⟩
    | raised n =>
      have htail : rest = '^' :: (n.chars ++ rest') := (List.cons.inj h).2
      exact absurd (htail ▸ rfl) (hr.head?_ne (c := '^') rfl)
  | raised n =>
    cases p' with
    | plain =>
      have htail : '^' :: (n.chars ++ rest) = rest' := (List.cons.inj h).2
      exact absurd (htail ▸ rfl) (hr'.head?_ne (c := '^') rfl)
    | raised n' =>
      have htail : n.chars ++ rest = n'.chars ++ rest' := (List.cons.inj (List.cons.inj h).2).2
      obtain ⟨rfl, hrest⟩ := IntegerLiteral.chars_append_inj hr.noDigitAhead hr'.noDigitAhead htail
      exact ⟨rfl, hrest⟩

/-- No seam starts with a power. -/
theorem Seam.ne_power {rest : List Char} (h : Seam rest) (p : PowerForm) (right : List Char) :
    rest ≠ p.chars ++ right := by
  obtain ⟨tail, hchars⟩ := p.exists_cons
  rw [hchars]
  intro heq
  exact absurd (heq ▸ rfl) (h.head?_ne (c := 'x') rfl)

theorem Literal.chars_append_ne_power (l : Literal) (left : List Char) (p : PowerForm)
    (right : List Char) : l.chars ++ left ≠ p.chars ++ right := by
  obtain ⟨c, tail, hchars, hdigit⟩ := l.exists_cons
  obtain ⟨tail', hpower⟩ := p.exists_cons
  rw [hchars, hpower]
  intro heq
  obtain ⟨rfl, _⟩ := List.cons.inj heq
  cases hdigit

theorem TermForm.chars_append_inj {f f' : TermForm} {rest rest' : List Char} (hr : Seam rest)
    (hr' : Seam rest') (h : f.chars ++ rest = f'.chars ++ rest') : f = f' ∧ rest = rest' := by
  -- Forms with the same parts are compared part by part; of others only one has a power where a seam
  -- or a literal stands in the other.
  match f, f' with
  | constant l, constant l' =>
    obtain ⟨rfl, hrest⟩ := Literal.chars_append_inj hr.endsLiteral hr'.endsLiteral h
    exact ⟨rfl, hrest⟩
  | constant l, scaled l' p' =>
    rw [chars, chars, List.append_assoc] at h
    obtain ⟨_, hrest⟩ := Literal.chars_append_inj hr.endsLiteral (p'.endsLiteral rest') h
    exact absurd hrest (hr.ne_power p' rest')
  | scaled l p, constant l' =>
    rw [chars, chars, List.append_assoc] at h
    obtain ⟨_, hrest⟩ := Literal.chars_append_inj (p.endsLiteral rest) hr'.endsLiteral h
    exact absurd hrest.symm (hr'.ne_power p rest)
  | scaled l p, scaled l' p' =>
    rw [chars, chars, List.append_assoc, List.append_assoc] at h
    obtain ⟨rfl, hpower⟩ :=
      Literal.chars_append_inj (p.endsLiteral rest) (p'.endsLiteral rest') h
    obtain ⟨rfl, hrest⟩ := PowerForm.chars_append_inj hr hr' hpower
    exact ⟨rfl, hrest⟩
  | bare p, bare p' =>
    obtain ⟨rfl, hrest⟩ := PowerForm.chars_append_inj hr hr' h
    exact ⟨rfl, hrest⟩
  | constant l, bare p' => exact absurd h (l.chars_append_ne_power _ p' _)
  | bare p, constant l' => exact absurd h.symm (l'.chars_append_ne_power _ p _)
  | scaled l p, bare p' =>
    rw [chars, chars, List.append_assoc] at h
    exact absurd h (l.chars_append_ne_power _ p' _)
  | bare p, scaled l' p' =>
    rw [chars, chars, List.append_assoc] at h
    exact absurd h.symm (l'.chars_append_ne_power _ p _)

theorem spaces_append_inj {n n' : Nat} {body body' : List Char} (h : body.head? ≠ some ' ')
    (h' : body'.head? ≠ some ' ') (heq : spaces n ++ body = spaces n' ++ body') :
    n = n' ∧ body = body' := by
  have hblanks := congrArg (List.takeWhile TokenStream.isBlank) heq
  have hbodies := congrArg (List.dropWhile TokenStream.isBlank) heq
  rw [takeWhile_spaces_append n h, takeWhile_spaces_append n' h'] at hblanks
  rw [dropWhile_spaces_append n h, dropWhile_spaces_append n' h'] at hbodies
  have hlength := congrArg List.length hblanks
  rw [spaces, spaces, List.length_replicate, List.length_replicate] at hlength
  exact ⟨hlength, hbodies⟩

theorem Sign.lexeme_injective {s s' : Sign} (h : s.lexeme = s'.lexeme) : s = s' := by
  have hread := congrArg ofChar? h
  rw [ofChar?_lexeme, ofChar?_lexeme] at hread
  exact Option.some.inj hread

theorem Sign.lexeme_ne_blank (s : Sign) (rest : List Char) :
    (s.lexeme :: rest).head? ≠ some ' ' := by
  cases s
  · simp [lexeme]
  · simp [lexeme]

theorem Sign.not_isTermChar_lexeme (s : Sign) : isTermChar s.lexeme = false := by
  cases s
  · rfl
  · rfl

/-- Blanks, a term and a seam can be told apart. -/
theorem TermForm.spaces_append_inj {n n' : Nat} {f f' : TermForm} {rest rest' : List Char}
    (hr : Seam rest) (hr' : Seam rest')
    (h : spaces n ++ (f.chars ++ rest) = spaces n' ++ (f'.chars ++ rest')) :
    n = n' ∧ f = f' ∧ rest = rest' := by
  obtain ⟨hn, hbody⟩ :=
    PowerRule.spaces_append_inj (f.head?_append_ne rfl rest) (f'.head?_append_ne rfl rest') h
  exact ⟨hn, TermForm.chars_append_inj hr hr' hbody⟩

theorem SignedForm.flatMap_chars_injective {others others' : List SignedForm}
    (h : others.flatMap chars = others'.flatMap chars) : others = others' := by
  have hnil : ∀ (a : SignedForm) (rest : List SignedForm), (a :: rest).flatMap chars ≠ [] := by
    intro a rest
    rw [List.flatMap_cons, chars_append]
    exact List.append_ne_nil_of_right_ne_nil _ (List.cons_ne_nil _ _)
  induction others generalizing others' with
  | nil =>
    cases others' with
    | nil => rfl
    | cons a' others' => exact absurd h.symm (hnil a' others')
  | cons a others ih =>
    cases others' with
    | nil => exact absurd h (hnil a others)
    | cons a' others' =>
      rw [List.flatMap_cons, List.flatMap_cons, chars_append, chars_append] at h
      obtain ⟨hbefore, hbody⟩ := spaces_append_inj (a.sign.lexeme_ne_blank _)
        (a'.sign.lexeme_ne_blank _) h
      obtain ⟨hsign, htail⟩ := List.cons.inj hbody
      obtain ⟨hafter, hform, hothers⟩ :=
        TermForm.spaces_append_inj (seam_others others) (seam_others others') htail
      rw [ih hothers]
      obtain ⟨before, sign, after, form⟩ := a
      obtain ⟨before', sign', after', form'⟩ := a'
      dsimp only at hbefore hsign hafter hform
      rw [hbefore, Sign.lexeme_injective hsign, hafter, hform]

namespace SumForm

theorem head?_body_ne_blank (f : SumForm) :
    (f.signChars ++ (f.first.chars ++ f.others.flatMap SignedForm.chars)).head? ≠ some ' ' := by
  obtain ⟨blanks, sign, first, others⟩ := f
  cases sign with
  | none => exact first.head?_append_ne rfl _
  | some p => exact p.1.lexeme_ne_blank _

/-- **No text has two forms.** -/
theorem chars_injective {f g : SumForm} (h : f.chars = g.chars) : f = g := by
  obtain ⟨hblanks, hbody⟩ := spaces_append_inj f.head?_body_ne_blank g.head?_body_ne_blank h
  obtain ⟨blanks, sign, first, others⟩ := f
  obtain ⟨blanks', sign', first', others'⟩ := g
  dsimp only at hblanks
  subst hblanks
  -- A sign is no character of a term, so both forms have a first sign or none has.
  have hunsigned : ∀ (t : TermForm) (s : Sign) (left right : List Char),
      t.chars ++ left ≠ s.lexeme :: right := by
    intro t s left right heq
    exact t.head?_append_ne s.not_isTermChar_lexeme left (by rw [heq]; rfl)
  cases sign with
  | none =>
    cases sign' with
    | none =>
      obtain ⟨rfl, hothers⟩ :=
        TermForm.chars_append_inj (seam_others others) (seam_others others') hbody
      rw [SignedForm.flatMap_chars_injective hothers]
    | some p => exact absurd hbody (hunsigned first p.1 _ _)
  | some p =>
    obtain ⟨s, n⟩ := p
    cases sign' with
    | none => exact absurd hbody.symm (hunsigned first' s _ _)
    | some p' =>
      obtain ⟨s', n'⟩ := p'
      obtain ⟨hsign, htail⟩ := List.cons.inj hbody
      obtain ⟨rfl, rfl, hothers⟩ :=
        TermForm.spaces_append_inj (seam_others others) (seam_others others') htail
      rw [Sign.lexeme_injective hsign, SignedForm.flatMap_chars_injective hothers]

end SumForm

namespace Poly

/-- **The texts of polynomials are the texts of the grammar, and each is read as what its form
denotes.**  A text has at most one form; where it has none that denotes a polynomial there is an
error. -/
theorem parse_eq_ok_iff_form (text : String) :
    (∀ p, parse text = .ok p ↔ ∃ f : SumForm, f.chars = text.toList ∧ f.Denotes p) ∧
      (∀ f g : SumForm, f.chars = text.toList → g.chars = text.toList → f = g) ∧
      ((∀ (f : SumForm) (p : Poly), f.chars = text.toList → ¬ f.Denotes p) →
        ∃ e, parse text = .error e) := by
  have hiff : ∀ p, parse text = .ok p ↔ ∃ f : SumForm, f.chars = text.toList ∧ f.Denotes p := by
    intro p
    simp only [SumForm.denotes_iff]
    constructor
    · intro h
      exact exists_form_of_parseChars h
    · rintro ⟨f, hchars, hpoly⟩
      rw [parse, ← hchars]
      exact parseChars_of_form hpoly
  refine ⟨hiff, ?_, ?_⟩
  · intro f g hf hg
    exact SumForm.chars_injective (hf.trans hg.symm)
  · intro hnone
    cases hparse : parse text with
    | error e => exact ⟨e, rfl⟩
    | ok p =>
      obtain ⟨f, hchars, hdenotes⟩ := (hiff p).1 hparse
      exact absurd hdenotes (hnone f p hchars)

/-- A single zero. -/
def zeroLiteral : Literal := ⟨⟨['0'], List.cons_ne_nil _ _, by simp⟩, none⟩

/-- The form of `- 0x^-007`. -/
def negatedZero : SumForm where
  blanks := 0
  sign := some (.minus, 1)
  first := .scaled zeroLiteral (.raised ⟨true, ⟨['0', '0', '7'], List.cons_ne_nil _ _, by simp⟩⟩)
  others := []

/-- The zero gets the sign, and the zeros in front of the exponent do not count. -/
theorem parse_eq_ok_iff_form_negatedZero :
    negatedZero.chars = "- 0x^-007".toList ∧
      negatedZero.Denotes [⟨.finite .minus .zero, ⟨-7, by decide, by decide⟩⟩] ∧
      parse "- 0x^-007" = .ok [⟨.finite .minus .zero, ⟨-7, by decide, by decide⟩⟩] := by
  have hchars : negatedZero.chars = "- 0x^-007".toList := by decide
  have hvalue : zeroLiteral.value = 0 := by decide +kernel
  have hrange : zeroLiteral.InRange := by
    rw [Literal.InRange, hvalue]
    exact sub_pos.2 (pow_lt_pow_right₀ (by norm_num) (by norm_num))
  have hnear : Magnitude.zero.IsNearest zeroLiteral.value := by
    rw [hvalue]
    exact Magnitude.isNearest_zero le_rfl (by positivity)
  have hdenotes : negatedZero.Denotes [⟨.finite .minus .zero, ⟨-7, by decide, by decide⟩⟩] :=
    .cons ⟨⟨.zero, rfl, hrange, hnear⟩, rfl⟩ .nil
  exact ⟨hchars, hdenotes, ((parse_eq_ok_iff_form _).1 _).2 ⟨negatedZero, hchars, hdenotes⟩⟩

end Poly

end PowerRule
