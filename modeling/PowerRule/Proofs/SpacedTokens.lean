import PowerRule.Proofs.Written

/-!
Tokens through text.

Tokens are written one after the other with blanks between them, in any order: terms may stand next to
terms and operators next to operators.  A blank is a seam, so each of them is scanned as it was
written, whatever comes next:

    Spells (pieces.flatMap SpacedToken.chars) (pieces.map SpacedToken.token)

if the terms have no sign of their own and there is a blank between any two tokens.  Blanks before the
first token are free, and none may stand behind the last one.

Main statement: `Poly.parse_spacedText`.
-/

namespace PowerRule

/-! ### Tokens that are written as they are read -/

/-- An operator, or a term with a finite coefficient that has no minus. -/
def Token.isUnsigned : Token → Bool
  | term ⟨.finite .plus _, _⟩ => true
  | term _ => false
  | operator _ => true

/-- Such a token is scanned whole in front of a seam. -/
theorem Token.scan?_chars_append {t : Token} (h : t.isUnsigned = true) {rest : List Char}
    (hr : Seam rest) : scan? (t.chars ++ rest) = some (t, t.chars.length) := by
  match t with
  | operator s => exact scan?_lexeme s rest
  | term ⟨.finite .plus m, e⟩ => exact Term.scan?_chars_append m e hr
  | term ⟨.finite .minus m, e⟩ => cases h
  | term ⟨.infinite s, e⟩ => cases h
  | term ⟨.nan, e⟩ => cases h

/-! ### Tokens with their blanks -/

/-- A token and the number of blanks before it. -/
structure SpacedToken where
  blanks : Nat
  token : Token
  deriving DecidableEq

def SpacedToken.chars (a : SpacedToken) : List Char := spaces a.blanks ++ a.token.chars

/-- Tokens written one after the other, each behind its blanks. -/
def spacedText (pieces : List SpacedToken) : String := .ofList (pieces.flatMap SpacedToken.chars)

/-- A blank before the next token is a seam, and so is the end. -/
theorem seam_spaced {pieces : List SpacedToken} (h : ∀ a ∈ pieces.head?, 0 < a.blanks) :
    Seam (pieces.flatMap SpacedToken.chars) := by
  cases pieces with
  | nil => exact Seam.nil
  | cons a pieces =>
    obtain ⟨n, hn⟩ := Nat.exists_eq_add_of_lt (h a rfl)
    rw [Nat.zero_add] at hn
    rw [List.flatMap_cons, SpacedToken.chars, hn]
    exact Seam.cons rfl _

/-- The text of spaced tokens spells them. -/
theorem Spells.of_spaced {pieces : List SpacedToken} (h : ∀ a ∈ pieces, a.token.isUnsigned = true)
    (hgap : ∀ a ∈ pieces.tail, 0 < a.blanks) :
    Spells (pieces.flatMap SpacedToken.chars) (pieces.map SpacedToken.token) := by
  induction pieces with
  | nil => exact .nil
  | cons a pieces ih =>
    obtain ⟨ha, hpieces⟩ := List.forall_mem_cons.1 h
    have hseam : Seam (pieces.flatMap SpacedToken.chars) :=
      seam_spaced fun b hb => hgap b (List.mem_of_mem_head? hb)
    have htail := ih hpieces fun b hb => hgap b (List.mem_of_mem_tail hb)
    rw [List.flatMap_cons, SpacedToken.chars, List.append_assoc]
    exact .cons a.blanks (Token.scan?_chars_append ha hseam) htail

/-! ### Reading them back -/

namespace Poly

/-- **Spaced tokens are read back as they are**, with nothing that is no token among them, and put
together as they are.  They need not be a sum; if they are none, the text has the same fault. -/
theorem parse_spacedText {pieces : List SpacedToken} (h : ∀ a ∈ pieces, a.token.isUnsigned = true)
    (hgap : ∀ a ∈ pieces.tail, 0 < a.blanks) :
    tokensOf (TokenStream.ofChars (spacedText pieces).toList).items
        = .ok (pieces.map SpacedToken.token) ∧
      parse (spacedText pieces)
        = (ofTokens (pieces.map SpacedToken.token)).mapError .ungrammatical := by
  have hspells := Spells.of_spaced h hgap
  rw [parse, spacedText, String.toList_ofList]
  exact ⟨hspells.tokensOf_items 0, parseChars_of_spells hspells⟩

/-- Two blanks and two operators, then three terms without an operator between them: a zero with the
least exponent, three units of the format with the greatest exponent, and a number alone. -/
def disordered : List SpacedToken :=
  [⟨2, .operator .minus⟩, ⟨1, .operator .plus⟩, ⟨1, .term ⟨.zero, .least⟩⟩,
    ⟨3, .term ⟨.finite .plus ⟨3, by decide +kernel, by decide +kernel⟩, .greatest⟩⟩,
    ⟨1, .term ⟨.one, .zero⟩⟩]

theorem parse_spacedText_disordered :
    (∀ a ∈ disordered, a.token.isUnsigned = true) ∧ (∀ a ∈ disordered.tail, 0 < a.blanks) ∧
      tokensOf (TokenStream.ofChars (spacedText disordered).toList).items
        = .ok (disordered.map SpacedToken.token) ∧
      parse (spacedText disordered) = .error (.ungrammatical .operatorForTerm) := by
  have hunsigned : ∀ a ∈ disordered, a.token.isUnsigned = true := by decide +kernel
  have hgap : ∀ a ∈ disordered.tail, 0 < a.blanks := by decide +kernel
  obtain ⟨htokens, hparse⟩ := parse_spacedText hunsigned hgap
  exact ⟨hunsigned, hgap, htokens, hparse⟩

end Poly

end PowerRule
