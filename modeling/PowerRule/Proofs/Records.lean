import PowerRule.Proofs.Items
import PowerRule.Traced

/-!
The records of a whole run.

A run from text to text leaves, in this order and nothing else,

    one record for each token, with the offset of its first character
    then    where no token starts, if the stream failed
    or      why the tokens are no sum
    or      the number of terms, and the same number once more for each derivative.

A stream is drained before anything is put together, so a failure is the last record.  The number of
terms never changes, since derivatives keep zero terms.

Main statement: `Traced.lines_nthDerivativeText`.
-/

namespace PowerRule

/-! ### Lines -/

/-- A line: how important it is, who speaks, and the message. -/
def logLine (level target message : String) : String := level ++ " " ++ target ++ ": " ++ message

/-- The line of a token. -/
def PlacedToken.line (a : PlacedToken) : String :=
  logLine "TRACE" "polydiff::lexer"
    ("token " ++ a.token.recordText ++ " at " ++ toString a.start)

/-- The line of a sum with so many terms. -/
def parsedLine (terms : Nat) : String :=
  logLine "DEBUG" "polydiff::parser" ("parsed " ++ toString terms ++ " terms")

/-- The line of a derivative with so many terms. -/
def differentiatedLine (terms : Nat) : String :=
  logLine "DEBUG" "polydiff::calculus::differentiate"
    ("differentiated " ++ toString terms ++ " terms")

/-- The line of a failure. -/
def noTokenLine (offset : Nat) : String :=
  logLine "TRACE" "polydiff::lexer" ("no lexical form matches at " ++ toString offset)

/-- The line of tokens that are no sum. -/
def faultLine (message : String) : String := logLine "DEBUG" "polydiff::parser" message

/-- The line of an outcome. -/
def outcomeLine : Except ParseError Poly → String
  | .error (.malformed offset) => noTokenLine offset
  | .error (.ungrammatical f) => faultLine f.message
  | .ok p => parsedLine p.length

/-- What is said of tokens that are no sum. -/
def faultMessages : List String :=
  ["expected Term, found end of input", "expected Term, found Operator",
    "unexpected Term after last term"]

theorem Fault.message_mem (f : Fault) : f.message ∈ faultMessages := by
  cases f <;> decide +kernel

/-- The lines of the tokens of a text. -/
def tokenLines (text : String) : List String :=
  (TokenStream.ofChars text.toList).placedTokens.map PlacedToken.line

namespace Record

theorem line_ofItem_item (a : PlacedToken) : (ofItem a.item).line = a.line := by
  rw [PlacedToken.line, ← numeral_eq]
  rfl

theorem line_noToken (offset : Nat) : (noToken offset).line = noTokenLine offset := by
  rw [noTokenLine, ← numeral_eq]
  rfl

theorem line_parsed (terms : Nat) : (parsed terms).line = parsedLine terms := by
  rw [parsedLine, ← numeral_eq]
  rfl

theorem line_differentiated (terms : Nat) :
    (differentiated terms).line = differentiatedLine terms := by
  rw [differentiatedLine, ← numeral_eq]
  rfl

theorem line_fault (f : Fault) : (fault f).line = faultLine f.message := rfl

theorem line_ofOutcome (outcome : Except Fault Poly) :
    (ofOutcome outcome).line = outcomeLine (outcome.mapError .ungrammatical) := by
  cases outcome with
  | error f => exact line_fault f
  | ok p => exact line_parsed p.length

end Record

/-- The lines of the items of a text. -/
theorem TokenStream.map_line_ofItem (text : List Char) :
    ((ofChars text).items.map Record.ofItem).map Record.line
      = (ofChars text).placedTokens.map PlacedToken.line
        ++ (ofChars text).failure?.toList.map noTokenLine := by
  have htoken : Record.line ∘ Record.ofItem ∘ PlacedToken.item = PlacedToken.line :=
    funext Record.line_ofItem_item
  have hfailure : Record.line ∘ Record.ofItem ∘ Item.malformed = noTokenLine :=
    funext Record.line_noToken
  rw [ofChars, items_eq]
  simp only [List.map_append, List.map_map, htoken, hfailure]

namespace Traced

/-- The lines that a run leaves. -/
def lines {α : Type} (x : Traced α) : List String := x.records.map Record.line

/-! ### Reading -/

theorem records_parse (text : String) :
    (parse text).records = (TokenStream.ofChars text.toList).items.map Record.ofItem
      ++ (ofItems (TokenStream.ofChars text.toList).items).records := by
  rw [parse, records_bind, records_drain, value_drain]
  rfl

theorem records_ofItems_of_ok {items : List Item} {tokens : List Token}
    (h : tokensOf items = .ok tokens) :
    (ofItems items).records = [.ofOutcome (Poly.ofTokens tokens)] := by
  rw [ofItems, h]
  simp only [records_bind, records_pure, records_ofTokens, List.append_nil]

/-- A stream that fails leaves the lines of its tokens and of its failure, and nothing is put
together. -/
theorem lines_parse_of_failure {text : String} {offset : Nat}
    (h : (TokenStream.ofChars text.toList).failure? = some offset) :
    (parse text).lines = tokenLines text ++ [noTokenLine offset] := by
  have hnone : (ofItems (TokenStream.ofChars text.toList).items).records = [] := by
    rw [ofItems, TokenStream.ofChars, TokenStream.tokensOf_items_of_failure h]
    rfl
  rw [lines, records_parse, hnone, List.append_nil, TokenStream.map_line_ofItem, h]
  rfl

/-- A stream that does not fail leaves the lines of its tokens, and of how they are put together. -/
theorem lines_parse_of_no_failure {text : String} {tokens : List Token}
    (h : (TokenStream.ofChars text.toList).failure? = none)
    (htokens : (TokenStream.ofChars text.toList).placedTokens.map PlacedToken.token = tokens) :
    (parse text).lines = tokenLines text ++ [(Record.ofOutcome (Poly.ofTokens tokens)).line] := by
  have hone : (ofItems (TokenStream.ofChars text.toList).items).records
      = [.ofOutcome (Poly.ofTokens tokens)] := by
    rw [TokenStream.ofChars, records_ofItems_of_ok (TokenStream.tokensOf_items_of_no_failure h),
      ← htokens]
    rfl
  rw [lines, records_parse, hone, List.map_append, TokenStream.map_line_ofItem, h, tokenLines,
    Option.toList_none, List.map_nil, List.append_nil, List.map_singleton]

/-- **The lines of a text read are those of its tokens and that of the outcome.** -/
theorem lines_parse (text : String) :
    (parse text).lines = tokenLines text ++ [outcomeLine (Poly.parse text)] := by
  cases h : (TokenStream.ofChars text.toList).failure? with
  | some offset =>
    have hparse : Poly.parse text = .error (.malformed offset) :=
      Poly.parseChars_of_error (TokenStream.tokensOf_items_of_failure h)
    rw [lines_parse_of_failure h, hparse]
    rfl
  | none =>
    have htokens := TokenStream.tokensOf_items_of_no_failure h
    have hparse : Poly.parse text = _ :=
      Poly.parseChars_of_spells (spells_of_tokensOf_items 0 htokens)
    rw [lines_parse_of_no_failure h rfl, Record.line_ofOutcome, hparse]
    rfl

/-! ### From text to text -/

theorem lines_nthDerivativeText_of_error {text : String} {e : ParseError} (order : Nat)
    (h : Poly.parse text = .error e) :
    (nthDerivativeText text order).lines = tokenLines text ++ [outcomeLine (.error e)] := by
  rw [← h, ← lines_parse, lines, nthDerivativeText, records_bind, value_parse, h]
  exact congrArg (List.map Record.line) (List.append_nil _)

/-- Each derivative leaves the same line. -/
theorem lines_nthDerivativeText_of_ok {text : String} {p : Poly} (order : Nat)
    (h : Poly.parse text = .ok p) :
    (nthDerivativeText text order).lines = tokenLines text
      ++ parsedLine p.length :: List.replicate order (differentiatedLine p.length) := by
  have hparse := lines_parse text
  rw [h] at hparse
  rw [← List.singleton_append, ← List.append_assoc]
  show _ = tokenLines text ++ [outcomeLine (.ok p)] ++ _
  rw [← hparse, lines, nthDerivativeText, records_bind, value_parse, h]
  simp only [records_bind, records_pure, records_nthDerivative, List.append_nil, List.map_append,
    List.map_replicate, Record.line_differentiated]
  rfl

theorem eq_error_of_map_eq_error {ε α β : Type} {r : Except ε α} {f : α → β} {e : ε}
    (h : r.map f = .error e) : r = .error e := by
  cases r with
  | ok a => cases h
  | error e' =>
    cases h
    rfl

/-- **The lines of a run tell what became of the text.**  They are the lines of its tokens, which stand
where they say, each behind the one before; then the line of the failure, or of the fault, or of the
number of terms, and in this last case one line more for each derivative. -/
theorem lines_nthDerivativeText (text : String) (order : Nat) :
    (nthDerivativeText text order).value = Poly.nthDerivativeText text order ∧
    ((TokenStream.ofChars text.toList).placedTokens.Pairwise fun a b => a.start < b.start) ∧
    (∀ a ∈ (TokenStream.ofChars text.toList).placedTokens, a.StandsIn text.toList) ∧
    (∀ offset, Poly.nthDerivativeText text order = .error (.malformed offset) →
      (nthDerivativeText text order).lines = tokenLines text ++ [noTokenLine offset]) ∧
    (∀ f, Poly.nthDerivativeText text order = .error (.ungrammatical f) →
      ∃ message ∈ faultMessages,
        (nthDerivativeText text order).lines = tokenLines text ++ [faultLine message]) ∧
    ∀ u, Poly.nthDerivativeText text order = .ok u →
      ∃ p, Poly.parse text = .ok p ∧
        (nthDerivativeText text order).lines = tokenLines text
          ++ parsedLine p.length :: List.replicate order (differentiatedLine p.length) := by
  refine ⟨value_nthDerivativeText text order, TokenStream.pairwise_start_lt text.toList 0,
    fun a ha => TokenStream.standsIn_of_mem_placedTokens ha, ?_, ?_, ?_⟩
  · intro offset hresult
    exact lines_nthDerivativeText_of_error order (eq_error_of_map_eq_error hresult)
  · intro f hresult
    exact ⟨f.message, f.message_mem,
      lines_nthDerivativeText_of_error order (eq_error_of_map_eq_error hresult)⟩
  · intro u hresult
    obtain ⟨p, hparse, _⟩ := exists_of_map_eq_ok hresult
    exact ⟨p, hparse, lines_nthDerivativeText_of_ok order hparse⟩

/-- A sum that is differentiated twice, and a text that fails behind a blank. -/
theorem lines_nthDerivativeText_cubic :
    (Poly.nthDerivativeText "2x^3 - x" 2 = .ok "12x" ∧
      (nthDerivativeText "2x^3 - x" 2).lines =
        ["TRACE polydiff::lexer: token Term(Term \x7b coefficient: 2.0, exponent: 3 \x7d) at 0",
          "TRACE polydiff::lexer: token Operator(Minus) at 5",
          "TRACE polydiff::lexer: token Term(Term \x7b coefficient: 1.0, exponent: 1 \x7d) at 7",
          "DEBUG polydiff::parser: parsed 2 terms",
          "DEBUG polydiff::calculus::differentiate: differentiated 2 terms",
          "DEBUG polydiff::calculus::differentiate: differentiated 2 terms"]) ∧
    (Poly.nthDerivativeText "- y" 2 = .error (.malformed 2) ∧
      (nthDerivativeText "- y" 2).lines =
        ["TRACE polydiff::lexer: token Operator(Minus) at 0",
          "TRACE polydiff::lexer: no lexical form matches at 2"]) := by
  have hcubic : Poly.nthDerivativeText "2x^3 - x" 2 = .ok "12x" := by decide +kernel
  have hfailure : Poly.nthDerivativeText "- y" 2 = .error (.malformed 2) := by decide +kernel
  obtain ⟨_, _, _, _, _, hok⟩ := lines_nthDerivativeText "2x^3 - x" 2
  obtain ⟨_, _, _, hmalformed, _⟩ := lines_nthDerivativeText "- y" 2
  obtain ⟨p, hparse, hlines⟩ := hok _ hcubic
  have hterms : Poly.parse "2x^3 - x" = .ok
      [⟨.ofInt 2, ⟨3, by decide, by decide⟩⟩, ⟨.signed .minus .one, .one⟩] := by decide +kernel
  cases hterms.symm.trans hparse
  refine ⟨⟨hcubic, hlines.trans ?_⟩, hfailure, (hmalformed 2 hfailure).trans ?_⟩
  all_goals decide +kernel

end Traced

end PowerRule
