import Mathlib.Data.List.Chain
import PowerRule.Proofs.Records

/-!
Which sequences of tokens are sums.

A sum alternates between the two kinds of tokens and ends with a term.  Everything else goes wrong in
one way, and the sequence shows which without being put together:

    the first two neighbours of one kind are operators    an operator stands where a term has to stand
    the first two neighbours of one kind are terms        a term stands behind a term
    there are no such neighbours                          the sequence ends where a term has to stand

Of a sum, each term has the sign of the operator before it.

The reader of tokens goes on behind a sign, so all of this is shown first for a sequence that starts
with an operator; before a first term a plus may be thought.

Main statement: `Traced.ofTokens_alternation`.
-/

namespace PowerRule

namespace Token

/-! ### Sequences of tokens -/

/-- Behind a token of one kind stands one of the other. -/
def Alternates (tokens : List Token) : Prop := tokens.IsChain fun a b => a.kind ≠ b.kind

/-- The first two neighbours of one kind are of this kind. -/
def FirstRepeat (k : Kind) (tokens : List Token) : Prop :=
  ∃ before a b after, tokens = before ++ a :: b :: after ∧ Alternates (before ++ [a]) ∧
    a.kind = k ∧ b.kind = k

/-- The last token is a term, if there is one. -/
def EndsWithTerm (tokens : List Token) : Prop := ∀ a ∈ tokens.getLast?, a.kind = .term

/-- The number of terms. -/
def termCount (tokens : List Token) : Nat := tokens.countP (·.kind = .term)

/-- The term that a token holds, with the sign of the operator directly before it. -/
def signedTerm? : Option Token → Token → Option Term
  | some (operator s), term t => some (t.signed s)
  | some (term _), term t => some t
  | none, term t => some t
  | _, operator _ => none

/-- The terms of a sequence, each with its sign, when this token stands before the sequence. -/
def signedTermsAfter (first : Option Token) (tokens : List Token) : Poly :=
  ((first :: tokens.map some).zip tokens).filterMap fun p => signedTerm? p.1 p.2

/-- The terms of a sequence, each with its sign. -/
def signedTerms (tokens : List Token) : Poly := signedTermsAfter none tokens

variable {a b : Token} {tokens : List Token} {k : Kind}

@[simp] theorem alternates_singleton (a : Token) : Alternates [a] := .singleton a

theorem alternates_cons_cons :
    Alternates (a :: b :: tokens) ↔ a.kind ≠ b.kind ∧ Alternates (b :: tokens) :=
  List.isChain_cons_cons

theorem endsWithTerm_cons_cons : EndsWithTerm (a :: b :: tokens) ↔ EndsWithTerm (b :: tokens) := by
  unfold EndsWithTerm
  rw [List.getLast?_cons_cons]

theorem endsWithTerm_singleton : EndsWithTerm [a] ↔ a.kind = .term := by
  simp [EndsWithTerm]

/-- Two neighbours of one kind come at the start or later. -/
theorem firstRepeat_cons_cons :
    FirstRepeat k (a :: b :: tokens) ↔
      (a.kind = k ∧ b.kind = k) ∨ (a.kind ≠ b.kind ∧ FirstRepeat k (b :: tokens)) := by
  constructor
  · rintro ⟨before, c, d, after, hsplit, halternates, hc, hd⟩
    rcases before with - | ⟨e, before⟩
    · cases hsplit
      exact .inl ⟨hc, hd⟩
    · obtain ⟨rfl, hrest⟩ := List.cons.inj hsplit
      refine .inr ?_
      -- The next token is `b`, in the part that alternates.
      rcases before with - | ⟨f, before⟩
      · cases hrest
        exact ⟨(alternates_cons_cons.1 halternates).1, [], _, _, _, rfl, .singleton _, hc, hd⟩
      · obtain ⟨rfl, hrest⟩ := List.cons.inj hrest
        obtain ⟨hne, htail⟩ := alternates_cons_cons.1 halternates
        exact ⟨hne, b :: before, c, d, after, hrest, htail, hc, hd⟩
  · rintro (⟨ha, hb⟩ | ⟨hne, before, c, d, after, hsplit, halternates, hc, hd⟩)
    · exact ⟨[], a, b, tokens, rfl, .singleton _, ha, hb⟩
    · refine ⟨a :: before, c, d, after, by rw [hsplit, List.cons_append], ?_, hc, hd⟩
      rcases before with - | ⟨f, before⟩
      · obtain ⟨rfl, -⟩ := List.cons.inj hsplit
        exact alternates_cons_cons.2 ⟨hne, halternates⟩
      · obtain ⟨rfl, -⟩ := List.cons.inj hsplit
        exact alternates_cons_cons.2 ⟨hne, halternates⟩

theorem not_firstRepeat_singleton : ¬ FirstRepeat k [a] := by
  rintro ⟨before, c, d, after, hsplit, -⟩
  have hlength := congrArg List.length hsplit
  simp at hlength
  omega

/-- A sequence alternates, or it has first neighbours of one kind. -/
theorem alternates_or_firstRepeat (tokens : List Token) :
    Alternates tokens ∨ ∃ k, FirstRepeat k tokens := by
  induction tokens with
  | nil => exact .inl .nil
  | cons a tokens ih =>
    rcases tokens with - | ⟨b, tokens⟩
    · exact .inl (.singleton a)
    · by_cases h : a.kind = b.kind
      · exact .inr ⟨b.kind, firstRepeat_cons_cons.2 (.inl ⟨h, rfl⟩)⟩
      · rcases ih with halternates | ⟨k, hk⟩
        · exact .inl (alternates_cons_cons.2 ⟨h, halternates⟩)
        · exact .inr ⟨k, firstRepeat_cons_cons.2 (.inr ⟨h, hk⟩)⟩

theorem signedTermsAfter_cons (first : Option Token) (a : Token) (tokens : List Token) :
    signedTermsAfter first (a :: tokens)
      = (signedTerm? first a).toList ++ signedTermsAfter (some a) tokens := by
  unfold signedTermsAfter
  rw [List.map_cons, List.zip_cons_cons, List.filterMap_cons]
  cases signedTerm? first a
  · rfl
  · rfl

theorem signedTermsAfter_term (first : Option Token) (t : Term) (tokens : List Token) :
    ∃ u, signedTermsAfter first (term t :: tokens) = u :: signedTermsAfter (some (term t)) tokens := by
  rw [signedTermsAfter_cons]
  rcases first with - | ⟨v | s⟩
  · exact ⟨t, rfl⟩
  · exact ⟨t, rfl⟩
  · exact ⟨t.signed s, rfl⟩

@[simp] theorem termCount_term (t : Term) (tokens : List Token) :
    termCount (term t :: tokens) = termCount tokens + 1 :=
  List.countP_cons_of_pos rfl

@[simp] theorem termCount_operator (s : Sign) (tokens : List Token) :
    termCount (operator s :: tokens) = termCount tokens :=
  List.countP_cons_of_neg nofun

/-- Each term of the sequence is there once. -/
theorem length_signedTermsAfter (first : Option Token) (tokens : List Token) :
    (signedTermsAfter first tokens).length = termCount tokens := by
  induction tokens generalizing first with
  | nil => rfl
  | cons a tokens ih =>
    cases a with
    | term t =>
      obtain ⟨u, hu⟩ := signedTermsAfter_term first t tokens
      rw [hu, List.length_cons, ih, termCount_term]
    | operator s =>
      rw [signedTermsAfter_cons, termCount_operator]
      rcases first with - | ⟨v | r⟩
      · exact ih _
      · exact ih _
      · exact ih _

end Token

/-! ### Behind a sign -/

namespace Poly

open Token

variable {s : Sign} {tokens : List Token}

/-- A sequence that alternates and ends with a term is a sum. -/
theorem ofTokensAfter_of_alternates (h : Alternates (operator s :: tokens)) (hne : tokens ≠ [])
    (hend : EndsWithTerm tokens) :
    ofTokensAfter s tokens = .ok (signedTermsAfter (some (operator s)) tokens) := by
  induction s, tokens using ofTokensAfter.induct with
  | case1 s => exact absurd rfl hne
  | case2 s r tokens => exact absurd rfl (alternates_cons_cons.1 h).1
  | case3 s t => rfl
  | case4 s t r tokens ih =>
    obtain ⟨-, hrest⟩ := alternates_cons_cons.1 h
    obtain ⟨-, hrest⟩ := alternates_cons_cons.1 hrest
    have hend := endsWithTerm_cons_cons.1 hend
    rcases tokens with - | ⟨b, tokens⟩
    · cases endsWithTerm_singleton.1 hend
    · rw [ofTokensAfter, ih hrest (List.cons_ne_nil _ _) (endsWithTerm_cons_cons.1 hend)]
      rfl
  | case5 s t u tokens =>
    obtain ⟨-, hrest⟩ := alternates_cons_cons.1 h
    exact absurd rfl (alternates_cons_cons.1 hrest).1

/-- One that alternates and ends with an operator lacks a term at its end. -/
theorem ofTokensAfter_of_not_endsWithTerm (h : Alternates (operator s :: tokens))
    (hend : ¬ EndsWithTerm (operator s :: tokens)) :
    ofTokensAfter s tokens = .error .endForTerm := by
  induction s, tokens using ofTokensAfter.induct with
  | case1 s => rfl
  | case2 s r tokens => exact absurd rfl (alternates_cons_cons.1 h).1
  | case3 s t => exact absurd (endsWithTerm_cons_cons.2 (endsWithTerm_singleton.2 rfl)) hend
  | case4 s t r tokens ih =>
    obtain ⟨-, hrest⟩ := alternates_cons_cons.1 h
    obtain ⟨-, hrest⟩ := alternates_cons_cons.1 hrest
    rw [endsWithTerm_cons_cons, endsWithTerm_cons_cons] at hend
    rw [ofTokensAfter, ih hrest hend]
    rfl
  | case5 s t u tokens =>
    obtain ⟨-, hrest⟩ := alternates_cons_cons.1 h
    exact absurd rfl (alternates_cons_cons.1 hrest).1

end Poly

/-- What goes wrong at two neighbours of one kind. -/
def Token.Kind.repeatFault : Kind → Fault
  | term => .termAfterTerm
  | operator => .operatorForTerm

namespace Poly

open Token

variable {s : Sign} {tokens : List Token}

/-- Where it does not alternate, the first two neighbours of one kind decide. -/
theorem ofTokensAfter_of_firstRepeat {k : Kind} (h : FirstRepeat k (operator s :: tokens)) :
    ofTokensAfter s tokens = .error k.repeatFault := by
  -- The operator already taken stays in front, since it may be the first of the two neighbours.
  induction s, tokens using ofTokensAfter.induct with
  | case1 s => exact absurd h not_firstRepeat_singleton
  | case2 s r tokens =>
    rcases firstRepeat_cons_cons.1 h with ⟨rfl, -⟩ | ⟨hne, -⟩
    · rfl
    · exact absurd rfl hne
  | case3 s t =>
    rcases firstRepeat_cons_cons.1 h with ⟨hs, ht⟩ | ⟨-, hrest⟩
    · cases hs.trans ht.symm
    · exact absurd hrest not_firstRepeat_singleton
  | case4 s t r tokens ih =>
    rcases firstRepeat_cons_cons.1 h with ⟨hs, ht⟩ | ⟨-, hrest⟩
    · cases hs.trans ht.symm
    · rcases firstRepeat_cons_cons.1 hrest with ⟨ht, hr⟩ | ⟨-, hrest⟩
      · cases ht.trans hr.symm
      · rw [ofTokensAfter, ih hrest]
        rfl
  | case5 s t u tokens =>
    rcases firstRepeat_cons_cons.1 h with ⟨hs, ht⟩ | ⟨-, hrest⟩
    · cases hs.trans ht.symm
    · rcases firstRepeat_cons_cons.1 hrest with ⟨rfl, -⟩ | ⟨hne, -⟩
      · rfl
      · exact absurd rfl hne

/-! ### From the first token on

Before a first term a plus changes nothing. -/

theorem alternates_plus (t : Term) :
    Alternates (operator .plus :: term t :: tokens) ↔ Alternates (term t :: tokens) := by
  rw [alternates_cons_cons]
  exact and_iff_right nofun

theorem signedTermsAfter_plus (t : Term) (tokens : List Token) :
    signedTermsAfter (some (operator .plus)) (term t :: tokens) = signedTerms (term t :: tokens) := by
  rw [signedTerms, signedTermsAfter_cons, signedTermsAfter_cons, signedTerm?, Term.signed_plus]
  rfl

theorem ofTokens_of_alternates (h : Alternates tokens) (hne : tokens ≠ [])
    (hend : EndsWithTerm tokens) : ofTokens tokens = .ok (signedTerms tokens) := by
  match tokens, hne with
  | .operator s :: [], _ => cases endsWithTerm_singleton.1 hend
  | .operator s :: b :: tokens, _ =>
    exact ofTokensAfter_of_alternates h (List.cons_ne_nil b tokens) (endsWithTerm_cons_cons.1 hend)
  | .term t :: tokens, _ =>
    rw [← signedTermsAfter_plus]
    exact ofTokensAfter_of_alternates ((alternates_plus t).2 h) (List.cons_ne_nil _ _) hend

theorem ofTokens_of_firstRepeat {k : Kind} (h : FirstRepeat k tokens) :
    ofTokens tokens = .error k.repeatFault := by
  match tokens with
  | [] =>
    obtain ⟨before, a, b, after, hsplit, -⟩ := h
    exact absurd hsplit.symm (List.append_ne_nil_of_right_ne_nil _ (List.cons_ne_nil _ _))
  | .operator s :: tokens => exact ofTokensAfter_of_firstRepeat h
  | .term t :: tokens =>
    exact ofTokensAfter_of_firstRepeat (firstRepeat_cons_cons.2 (.inr ⟨nofun, h⟩))

theorem ofTokens_of_not_endsWithTerm (h : Alternates tokens)
    (hend : ¬ (tokens ≠ [] ∧ EndsWithTerm tokens)) : ofTokens tokens = .error .endForTerm := by
  match tokens with
  | [] => rfl
  | .operator s :: tokens =>
    exact ofTokensAfter_of_not_endsWithTerm h fun hends => hend ⟨List.cons_ne_nil _ _, hends⟩
  | .term t :: tokens =>
    refine ofTokensAfter_of_not_endsWithTerm ((alternates_plus t).2 h) fun hends => ?_
    exact hend ⟨List.cons_ne_nil _ _, endsWithTerm_cons_cons.1 hends⟩

/-- No other tokens are a sum. -/
theorem alternates_of_ofTokens_eq_ok {p : Poly} (hp : ofTokens tokens = .ok p) :
    tokens ≠ [] ∧ Alternates tokens ∧ EndsWithTerm tokens := by
  rcases alternates_or_firstRepeat tokens with h | ⟨k, hk⟩
  · by_cases hend : tokens ≠ [] ∧ EndsWithTerm tokens
    · exact ⟨hend.1, h, hend.2⟩
    · cases hp.symm.trans (ofTokens_of_not_endsWithTerm h hend)
  · cases hp.symm.trans (ofTokens_of_firstRepeat hk)

end Poly

namespace Traced

open Token

variable {tokens : List Token}

theorem lines_ofTokens (tokens : List Token) :
    (ofTokens tokens).lines = [outcomeLine ((Poly.ofTokens tokens).mapError .ungrammatical)] := by
  rw [lines, records_ofTokens, List.map_singleton, Record.line_ofOutcome]

/-- What is said of two neighbours of one kind. -/
def repeatMessage : Kind → String
  | .term => "unexpected Term after last term"
  | .operator => "expected Term, found Operator"

theorem message_repeatFault (k : Kind) : k.repeatFault.message = repeatMessage k := by
  cases k <;> decide +kernel

theorem message_endForTerm : Fault.endForTerm.message = "expected Term, found end of input" := by
  decide +kernel

theorem message_ungrammatical (f : Fault) : (ParseError.ungrammatical f).message = "Expected: Term" := by
  show "Expected: " ++ Token.Kind.term.name = _
  decide +kernel

/-- **Tokens are a sum exactly if they alternate and end with a term.**  Then there is one term for
each token that is one, with the sign of the operator directly before it, and their number is on
record.  Otherwise there is one record: the first two neighbours of one kind decide what it says, and
without such neighbours it says that the tokens end too soon.  The caller is told the same in all of
these cases. -/
theorem ofTokens_alternation (tokens : List Token) :
    ((∃ p, (ofTokens tokens).value = .ok p) ↔
      tokens ≠ [] ∧ Alternates tokens ∧ EndsWithTerm tokens) ∧
    (∀ p, (ofTokens tokens).value = .ok p →
      p = signedTerms tokens ∧ p.length = termCount tokens ∧
        (ofTokens tokens).lines = [parsedLine (termCount tokens)]) ∧
    (∀ f, (ofTokens tokens).value = .error f →
      (ParseError.ungrammatical f).message = "Expected: Term") ∧
    (¬ Alternates tokens → ∃ k, FirstRepeat k tokens) ∧
    (∀ k, FirstRepeat k tokens →
      (ofTokens tokens).value = .error k.repeatFault ∧
        (ofTokens tokens).lines = [faultLine (repeatMessage k)]) ∧
    (Alternates tokens → ¬ (tokens ≠ [] ∧ EndsWithTerm tokens) →
      (ofTokens tokens).value = .error .endForTerm ∧
        (ofTokens tokens).lines = [faultLine "expected Term, found end of input"]) := by
  rw [value_ofTokens, lines_ofTokens]
  refine ⟨⟨fun ⟨p, hp⟩ => Poly.alternates_of_ofTokens_eq_ok hp, ?_⟩, ?_,
    fun f _ => message_ungrammatical f, ?_, ?_, ?_⟩
  · rintro ⟨hne, h, hend⟩
    exact ⟨signedTerms tokens, Poly.ofTokens_of_alternates h hne hend⟩
  · intro p hp
    obtain ⟨hne, h, hend⟩ := Poly.alternates_of_ofTokens_eq_ok hp
    have hterms := Poly.ofTokens_of_alternates h hne hend
    have hlength : (signedTerms tokens).length = termCount tokens := length_signedTermsAfter none tokens
    cases hp.symm.trans hterms
    refine ⟨rfl, hlength, ?_⟩
    rw [hterms, ← hlength]
    rfl
  · exact (alternates_or_firstRepeat tokens).resolve_left
  · intro k hk
    rw [Poly.ofTokens_of_firstRepeat hk, ← message_repeatFault]
    exact ⟨rfl, rfl⟩
  · intro h hend
    rw [Poly.ofTokens_of_not_endsWithTerm h hend, ← message_endForTerm]
    exact ⟨rfl, rfl⟩

/-- Two terms behind a sign each, two terms side by side, and an operator at the end. -/
theorem ofTokens_alternation_signs :
    ((ofTokens [.operator .minus, .term ⟨.zero, .one⟩, .operator .plus, .term ⟨.one, .one⟩]).value
        = .ok [⟨.finite .minus .zero, .one⟩, ⟨.one, .one⟩] ∧
      (ofTokens [.operator .minus, .term ⟨.zero, .one⟩, .operator .plus, .term ⟨.one, .one⟩]).lines
        = ["DEBUG polydiff::parser: parsed 2 terms"]) ∧
    (FirstRepeat .term [.term ⟨.nan, .one⟩, .term ⟨.one, .one⟩, .operator .plus, .operator .plus] ∧
      (ofTokens [.term ⟨.nan, .one⟩, .term ⟨.one, .one⟩, .operator .plus, .operator .plus]).lines
        = ["DEBUG polydiff::parser: unexpected Term after last term"]) ∧
    (Alternates [.term ⟨.one, .one⟩, .operator .minus] ∧
      ¬ EndsWithTerm [.term ⟨.one, .one⟩, .operator .minus] ∧
      (ofTokens [.term ⟨.one, .one⟩, .operator .minus]).lines
        = ["DEBUG polydiff::parser: expected Term, found end of input"]) := by
  have hsum : (ofTokens
      [.operator .minus, .term ⟨.zero, .one⟩, .operator .plus, .term ⟨.one, .one⟩]).value
        = .ok [⟨.finite .minus .zero, .one⟩, ⟨.one, .one⟩] := rfl
  have hrepeat : FirstRepeat .term
      [.term ⟨.nan, .one⟩, .term ⟨.one, .one⟩, .operator .plus, .operator .plus] :=
    ⟨[], _, _, _, rfl, .singleton _, rfl, rfl⟩
  have halternates : Alternates [.term ⟨.one, .one⟩, .operator .minus] :=
    alternates_cons_cons.2 ⟨nofun, .singleton _⟩
  have hend : ¬ EndsWithTerm [.term ⟨.one, .one⟩, .operator .minus] := by
    rw [endsWithTerm_cons_cons, endsWithTerm_singleton]
    nofun
  obtain ⟨_, hterms, _⟩ := ofTokens_alternation
    [.operator .minus, .term ⟨.zero, .one⟩, .operator .plus, .term ⟨.one, .one⟩]
  obtain ⟨_, _, _, _, hfirst, _⟩ := ofTokens_alternation
    [.term ⟨.nan, .one⟩, .term ⟨.one, .one⟩, .operator .plus, .operator .plus]
  obtain ⟨_, _, _, _, _, hlast⟩ := ofTokens_alternation [.term ⟨.one, .one⟩, .operator .minus]
  refine ⟨⟨hsum, (hterms _ hsum).2.2.trans ?_⟩, ⟨hrepeat, (hfirst _ hrepeat).2.trans ?_⟩,
    halternates, hend, (hlast halternates fun h => hend h.2).2.trans ?_⟩
  all_goals decide +kernel

end Traced

end PowerRule
