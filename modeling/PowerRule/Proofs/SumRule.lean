import PowerRule.Proofs.TextDerivative

/-!
The sum rule on texts.

A text that starts with a sign, blanks aside, can be written behind any polynomial: it is a seam, and
where it stands the parser is as it is behind a first sign.  So the two texts are read one after the
other, an offset in the second one moves by the bytes of the first (`Poly.parseChars_append`), and the
derivative of the whole is the sum of the derivatives.

Written sums are joined by their signs (`joinText`): a `0` on either side is dropped, and the plus that
the second text does not show comes back unless a minus or what is not a number stands there.

Main statement: `Poly.nthDerivativeText_append`.
-/

namespace PowerRule

/-- A text that gets no plus before it in a sum: it has a minus, or is not a number. -/
def OwnSign (text : List Char) : Prop := ['-'] <+: text ∨ Coefficient.nanChars <+: text

instance (text : List Char) : Decidable (OwnSign text) :=
  inferInstanceAs (Decidable (_ ∨ _))

/-- Two written polynomials as one. -/
def joinText (u v : String) : String :=
  if u = "0" then v
  else if v = "0" then u
  else if OwnSign v.toList then u ++ v
  else u ++ "+" ++ v

/-! ### Reading one text behind another -/

namespace Poly

/-- Behind a sum an operator continues it. -/
theorem ofTokensAfter_append {s : Sign} {tokens : List Token} {p : Poly}
    (h : ofTokensAfter s tokens = .ok p) (r : Sign) (others : List Token) :
    ofTokensAfter s (tokens ++ .operator r :: others)
      = (ofTokensAfter r others).map (p ++ ·) := by
  induction s, tokens using ofTokensAfter.induct generalizing p with
  | case1 s => cases h
  | case2 s r tokens => cases h
  | case3 s t =>
    cases h
    show (ofTokensAfter r others).map (t.signed s :: ·) = _
    rfl
  | case4 s t s' tokens ih =>
    obtain ⟨q, htokens, rfl⟩ := exists_of_map_eq_ok h
    show (ofTokensAfter s' (tokens ++ .operator r :: others)).map (t.signed s :: ·) = _
    rw [ih htokens]
    cases ofTokensAfter r others
    · rfl
    · rfl
  | case5 s t u tokens => cases h

theorem ofTokens_append {tokens : List Token} {p : Poly} (h : ofTokens tokens = .ok p) (r : Sign)
    (others : List Token) :
    ofTokens (tokens ++ .operator r :: others) = (ofTokensAfter r others).map (p ++ ·) := by
  match tokens, h with
  | .operator s :: tokens, h => exact ofTokensAfter_append h r others
  | .term t :: tokens, h => exact ofTokensAfter_append h r others
  | [], h => cases h

/-- **A text behind a sign is read as it is read alone, so many bytes later.** -/
theorem parseChars_append {a : List Char} {p : Poly} (ha : parseChars a = .ok p) (n : Nat) (s : Sign)
    (rest : List Char) :
    parseChars (a ++ (spaces n ++ s.lexeme :: rest))
      = ((parseChars (spaces n ++ s.lexeme :: rest)).map (p ++ ·)).mapError
          (ParseError.shift a.length) := by
  obtain ⟨tokens, hspells, htokens⟩ := exists_spells_of_parseChars ha
  have hseam : Seam (spaces n ++ s.lexeme :: rest) := Seam.spaces (Seam.lexeme s rest)
  rcases parseChars_cases (spaces n ++ s.lexeme :: rest) with
    ⟨others, hothers, hparse⟩ | ⟨e, herror, hparse⟩
  · -- The second text has tokens; the first of them is its sign.
    have hfirst := hothers.tokensOf_items 0
    rw [TokenStream.items_token n 0 (Token.scan?_lexeme s rest), tokensOf_token] at hfirst
    obtain ⟨tail, _, rfl⟩ := exists_of_map_eq_ok hfirst
    have hwhole := hspells.append hseam hothers
    rw [parseChars_of_spells hwhole, ofTokens_append htokens, hparse]
    show ((ofTokensAfter s tail).map _).mapError _
      = (((ofTokensAfter s tail).mapError _).map _).mapError _
    cases ofTokensAfter s tail
    · rfl
    · rfl
  · -- The second text stops the stream, and the whole text stops it later.
    have hitems := hspells.items_append hseam 0
    rw [TokenStream.items_shift] at hitems
    rw [hparse, parseChars_eq, hitems, tokensOf_append, hspells.tokensOf_items, tokensOf_map_shift,
      herror]
    rfl

/-! ### Writing one polynomial behind another -/

theorem nthDerivative_append (p q : Poly) (n : Nat) :
    nthDerivative (p ++ q) n = p.nthDerivative n ++ q.nthDerivative n := by
  induction n generalizing p q with
  | zero => rfl
  | succ n ih =>
    show nthDerivative (derivative (p ++ q)) n = _
    rw [derivative, List.map_append]
    exact ih p.derivative q.derivative

/-- Only a polynomial of zero terms is written as `0`. -/
theorem nonzero_eq_nil_of_chars {p : Poly} (h : p.chars = ['0']) : p.nonzero = [] := by
  have hzero : parse p.text = .ok [.constant .zero] := by
    rw [parse_text, h, parseChars_zero]
  by_cases hbad : ∃ t ∈ p, t.coefficient.isFinite = false
  · obtain ⟨offset, herror⟩ := parse_text_of_nonfinite hbad
    rw [herror] at hzero
    cases hzero
  · have hfinite : ∀ t ∈ p, t.coefficient.isFinite = true := by
      intro t ht
      refine Bool.of_not_eq_false ?_
      intro hnot
      exact hbad ⟨t, ht, hnot⟩
    by_cases hnil : p.nonzero = []
    · exact hnil
    · -- What is read holds the constant zero, and this is no term that is not zero.
      rw [parse_text_of_finite hfinite, if_neg hnil] at hzero
      have hmem : Term.constant .zero ∈ p.nonzero := by
        rw [Except.ok.inj hzero]
        exact .head []
      have hnot : false = true := (isZero_of_mem_nonzero hmem).symm
      cases hnot

/-- The text `0` stands for zero terms alone. -/
theorem text_eq_zero_iff {p : Poly} : p.text = "0" ↔ p.nonzero = [] := by
  constructor
  · intro h
    refine nonzero_eq_nil_of_chars ?_
    rw [← String.toList_ofList (l := p.chars)]
    exact congrArg String.toList h
  · intro h
    rw [text, chars_of_nonzero_nil h]

theorem not_ownSign_cons {c : Char} (hminus : c ≠ '-') (hnan : c ≠ 'N') (tail : List Char) :
    ¬ OwnSign (c :: tail) := by
  rintro (h | h)
  · exact hminus (List.cons_prefix_cons.1 h).1.symm
  · exact hnan (List.cons_prefix_cons.1 h).1.symm

/-- The terms that get no plus are those whose text starts with a minus or with what is not a
number. -/
theorem ownSign_chars_append {t : Term} (h : t.isZero = false) (rest : List Char) :
    OwnSign (t.chars ++ rest) ↔ t.coefficient.isPositive = false := by
  obtain ⟨c, e⟩ := t
  cases c with
  | nan => exact iff_of_true (.inr ⟨Term.powerChars e ++ rest, rfl⟩) rfl
  | infinite s =>
    cases s with
    | plus => exact iff_of_false (not_ownSign_cons (by decide) (by decide) _) (nomatch ·)
    | minus => exact iff_of_true (.inl ⟨_, rfl⟩) rfl
  | finite s m =>
    cases s with
    | minus =>
      refine iff_of_true (.inl ?_) rfl
      rw [chars_eq rfl h]
      exact ⟨_, rfl⟩
    | plus =>
      have hm : m.isZero = false := h
      refine iff_of_false ?_ ?_
      · -- A positive number starts with a digit.
        obtain ⟨d, tail, hdigits, hdigit⟩ := m.shortest.exists_positional_cons
        have hstart : (⟨.finite .plus m, e⟩ : Term).chars = d :: (tail ++ Term.powerChars e) := by
          show ((if m.isZero then [] else []) ++ m.shortest.positional) ++ Term.powerChars e = _
          rw [ite_self, List.nil_append, hdigits, List.cons_append]
        rw [hstart, List.cons_append]
        refine not_ownSign_cons ?_ ?_ _
        · rintro rfl
          cases hdigit
        · rintro rfl
          cases hdigit
      · show ¬ (!m.isZero) = false
        rw [hm]
        exact nofun

/-- In a sum the text of a term gets back the plus that it does not show. -/
theorem signedChars_append {t : Term} (h : t.isZero = false) (rest : List Char) :
    signedChars t ++ rest
      = if OwnSign (t.chars ++ rest) then t.chars ++ rest else '+' :: (t.chars ++ rest) := by
  have hown := ownSign_chars_append h rest
  cases hpositive : t.coefficient.isPositive with
  | false =>
    rw [if_pos (hown.2 hpositive), signedChars, hpositive]
    rfl
  | true =>
    have hnot : ¬ OwnSign (t.chars ++ rest) := by
      rw [hown, hpositive]
      exact nofun
    rw [if_neg hnot, signedChars, hpositive]
    rfl

theorem chars_append {p q : Poly} (hp : p.nonzero ≠ []) (hq : q.nonzero ≠ []) :
    (p ++ q).chars = p.chars ++ if OwnSign q.chars then q.chars else '+' :: q.chars := by
  obtain ⟨t, p', hp⟩ := List.exists_cons_of_ne_nil hp
  obtain ⟨u, q', hq⟩ := List.exists_cons_of_ne_nil hq
  have hu : u.isZero = false := isZero_of_mem_nonzero (hq ▸ List.mem_cons_self)
  have hwhole : (p ++ q).nonzero = t :: (p' ++ u :: q') := by
    rw [nonzero_append, hp, hq, List.cons_append]
  rw [chars_of_nonzero_cons hwhole, chars_of_nonzero_cons hp, chars_of_nonzero_cons hq,
    List.flatMap_append, List.flatMap_cons, signedChars_append hu, List.append_assoc]

/-- **Written sums are joined by their signs.** -/
theorem text_append (p q : Poly) : (p ++ q).text = joinText p.text q.text := by
  unfold joinText
  by_cases hp : p.nonzero = []
  · rw [if_pos (text_eq_zero_iff.2 hp)]
    refine text_congr ?_
    rw [nonzero_append, hp, List.nil_append]
  · rw [if_neg (mt text_eq_zero_iff.1 hp)]
    by_cases hq : q.nonzero = []
    · rw [if_pos (text_eq_zero_iff.2 hq)]
      refine text_congr ?_
      rw [nonzero_append, hq, List.append_nil]
    · rw [if_neg (mt text_eq_zero_iff.1 hq), text, text, text, String.toList_ofList,
        chars_append hp hq]
      split
      · exact String.ofList_append
      · rw [String.ofList_append, String.append_assoc, String.ofList_cons]
        rfl

/-! ### The sum rule -/

/-- A text that starts with a sign, blanks aside. -/
theorem exists_spaces_lexeme {text : List Char} {s : Sign}
    (h : (text.dropWhile (· = ' ')).head? = some s.lexeme) :
    ∃ n rest, text = spaces n ++ s.lexeme :: rest := by
  obtain ⟨n, body, rfl, hhead⟩ := exists_spaces_append text
  have hdrop := dropWhile_spaces_append n hhead
  obtain ⟨rest, hbody⟩ := List.head?_eq_some_iff.1 h
  refine ⟨n, rest, ?_⟩
  rw [← hbody]
  exact congrArg (spaces n ++ ·) hdrop.symm

theorem utf8ByteSize_of_parse {text : String} {p : Poly} (h : parse text = .ok p) :
    text.utf8ByteSize = text.toList.length := by
  obtain ⟨tokens, hspells, _⟩ := exists_spells_of_parseChars h
  have hsize := hspells.utf8ByteSize_ofList
  rwa [String.ofList_toList] at hsize

/-- A text behind a sign is read behind another one as it is read alone. -/
theorem parse_append {a b : String} {p : Poly} (ha : parse a = .ok p) {s : Sign}
    (hb : (b.toList.dropWhile (· = ' ')).head? = some s.lexeme) :
    parse (a ++ b) = ((parse b).map (p ++ ·)).mapError (ParseError.shift a.utf8ByteSize) := by
  obtain ⟨n, rest, hrest⟩ := exists_spaces_lexeme hb
  show parseChars (a ++ b).toList = ((parseChars b.toList).map (p ++ ·)).mapError _
  rw [String.toList_append, utf8ByteSize_of_parse ha, hrest]
  exact parseChars_append ha n s rest

/-- **The sum rule on texts.**  Where a text that can be read stands before one that starts with a sign,
the derivative of the whole is the sum of the derivatives, of any order and finite or not.  If the
second text cannot be read, neither can the whole, and for the same reason. -/
theorem nthDerivativeText_append {a b : String} (n : Nat) (ha : ∃ p, parse a = .ok p)
    (hb : ∃ s : Sign, (b.toList.dropWhile (· = ' ')).head? = some s.lexeme) :
    (∀ offset, parse b = .error (.malformed offset) →
      nthDerivativeText (a ++ b) n = .error (.malformed (offset + a.utf8ByteSize))) ∧
    (∀ f, parse b = .error (.ungrammatical f) →
      nthDerivativeText (a ++ b) n = .error (.ungrammatical f)) ∧
    (∀ q, parse b = .ok q →
      ∃ u v, nthDerivativeText a n = .ok u ∧ nthDerivativeText b n = .ok v ∧
        nthDerivativeText (a ++ b) n = .ok (joinText u v)) := by
  obtain ⟨p, ha⟩ := ha
  obtain ⟨s, hb⟩ := hb
  have hread := parse_append ha hb
  refine ⟨?_, ?_, ?_⟩
  · intro offset herror
    rw [nthDerivativeText, hread, herror]
    rfl
  · intro f herror
    rw [nthDerivativeText, hread, herror]
    rfl
  · intro q hq
    refine ⟨(p.nthDerivative n).text, (q.nthDerivative n).text, nthDerivativeText_of_parse ha n,
      nthDerivativeText_of_parse hq n, ?_⟩
    rw [hq] at hread
    rw [nthDerivativeText_of_parse hread, nthDerivative_append, text_append]

/-- Behind the text of a square: a text that can be read, one that is no sum, and one with a place
where no token starts. -/
theorem nthDerivativeText_append_blanks :
    (nthDerivativeText "x^2" 1 = .ok "2x" ∧ nthDerivativeText " - 3x" 1 = .ok "-3" ∧
      nthDerivativeText ("x^2" ++ " - 3x") 1 = .ok "2x-3") ∧
    (parse "+3+" = .error (.ungrammatical .endForTerm) ∧
      nthDerivativeText ("x^2" ++ "+3+") 1 = .error (.ungrammatical .endForTerm)) ∧
    (parse " +3y" = .error (.malformed 3) ∧
      nthDerivativeText ("x^2" ++ " +3y") 1 = .error (.malformed 6)) := by
  have hsquare : ∃ p, parse "x^2" = .ok p :=
    ⟨[⟨.one, ⟨2, by decide, by decide⟩⟩], by decide +kernel⟩
  have hread : parse " - 3x" = .ok [⟨.signed .minus (.ofInt 3), .one⟩] := by decide +kernel
  have hend : parse "+3+" = .error (.ungrammatical .endForTerm) := by decide +kernel
  have hforeign : parse " +3y" = .error (.malformed 3) := by decide +kernel
  have hleft : nthDerivativeText "x^2" 1 = .ok "2x" := by decide +kernel
  have hright : nthDerivativeText " - 3x" 1 = .ok "-3" := by decide +kernel
  refine ⟨?_, ⟨hend, ?_⟩, hforeign, ?_⟩
  · obtain ⟨_, _, hsum⟩ := nthDerivativeText_append (b := " - 3x") 1 hsquare ⟨.minus, by decide⟩
    obtain ⟨u, v, hu, hv, hjoin⟩ := hsum _ hread
    cases hleft.symm.trans hu
    cases hright.symm.trans hv
    have htext : joinText "2x" "-3" = "2x-3" := by decide +kernel
    exact ⟨hleft, hright, hjoin.trans (congrArg Except.ok htext)⟩
  · exact (nthDerivativeText_append 1 hsquare ⟨.plus, by decide⟩).2.1 _ hend
  · exact (nthDerivativeText_append 1 hsquare ⟨.plus, by decide⟩).1 _ hforeign

end Poly

end PowerRule
