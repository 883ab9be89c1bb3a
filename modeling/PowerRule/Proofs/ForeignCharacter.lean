import PowerRule.Proofs.Items

/-!
Characters that no lexeme has.

A lexeme is made of digits and of the characters `.`, `x`, `^`, `+` and `-`, and there are blanks.  Any
other character ends a text as far as its tokens go: each scan in front of it gives what it gives at the
end of the text,

    Token.scan? (text ++ f :: rest) = Token.scan? text,

a failing one included.  So a stream goes through the text before the character as if that were all.
It fails where it fails there, or else at the character, and what stands behind the character is never
looked at.

Main statement: `Poly.parse_append_foreign`.
-/

namespace PowerRule

section Foreign

variable {f : Char} (hf : isLexical f = false)

include hf

/-! ### Scans in front of such a character -/

theorem Seam.foreign (rest : List Char) : Seam (f :: rest) := by
  refine Seam.cons ?_ rest
  simp only [isLexical, Bool.or_eq_false_iff] at hf
  exact hf.1.1

theorem head?_foreign_ne_minus (rest : List Char) : (f :: rest).head? ≠ some '-' := by
  intro hhead
  cases hhead
  cases hf

omit hf in
/-- Where no token starts although there is text, the first character says so. -/
theorem Token.scanBare?_cons_append {c : Char} {tail : List Char} (h : scanBare? (c :: tail) = none)
    (rest : List Char) : scanBare? (c :: tail ++ rest) = none := by
  by_cases hc : c = 'x'
  · subst hc
    rw [scanBare?_variable] at h
    cases h
  · simpa [scanBare?, hc] using h

/-- **In front of such a character a text is scanned as at its end.** -/
theorem Token.scan?_append_foreign (text rest : List Char) :
    scan? (text ++ f :: rest) = scan? text := by
  have hseam := Seam.foreign hf rest
  cases h : scan? text with
  | some p =>
    obtain ⟨t, width⟩ := p
    exact scan?_append hseam h fun _ => head?_foreign_ne_minus hf rest
  | none =>
    rcases text with - | ⟨c, tail⟩
    · exact scan?_of_not_isLexical hf rest
    · -- A coefficient would be a token, so there is none, with the character or without it.
      have hnone : Coefficient.scan? (c :: tail) = none := by
        cases hc : Coefficient.scan? (c :: tail) with
        | none => rfl
        | some q =>
          rw [scan?_of_coefficient hc] at h
          cases h
      rw [scan?_of_no_coefficient hnone] at h
      have hlonger : Coefficient.scan? (c :: tail ++ f :: rest) = none := by
        rw [Coefficient.scan?_append_right _ hseam, hnone]
      rw [scan?_of_no_coefficient hlonger]
      exact scanBare?_cons_append h _

end Foreign

/-! ### Streams in front of such a character -/

/-- **A stream fails in front of such a character as it fails at the end, or at the character.** -/
theorem TokenStream.failure?_append_foreign {f : Char} (hf : isLexical f = false)
    (hblank : f ≠ ' ') (text rest : List Char) (position : Nat) :
    failure? ⟨text ++ f :: rest, position, false⟩
      = some ((failure? ⟨text, position, false⟩).getD (position + text.length)) := by
  induction text using streamInduction generalizing position with
  | nil =>
    rw [failure?_nil]
    refine failure?_malformed 0 position (List.cons_ne_nil f rest) ?_
      (Token.scan?_of_not_isLexical hf rest)
    simpa using hblank
  | token n lexeme left t hscan ih =>
    -- The lexeme is scanned as before, so both streams move on by the same width.
    have hwhole := Token.scan?_append_foreign hf (lexeme ++ left) rest
    rw [hscan, List.append_assoc] at hwhole
    have hlength : position + (spaces n ++ (lexeme ++ left)).length
        = position + n + lexeme.length + left.length := by
      rw [List.length_append, List.length_append, spaces, List.length_replicate]
      omega
    rw [List.append_assoc, List.append_assoc, failure?_lexeme n position hwhole,
      failure?_lexeme n position hscan, hlength]
    exact ih _
  | malformed n body hne hhead hscan =>
    have hwhole : Token.scan? (body ++ f :: rest) = none := by
      rw [Token.scan?_append_foreign hf, hscan]
    have hhead' : (body ++ f :: rest).head? ≠ some ' ' := by
      cases body with
      | nil => simpa using hblank
      | cons c tail => exact hhead
    rw [List.append_assoc, failure?_malformed n position (by simp) hhead' hwhole,
      failure?_malformed n position hne hhead hscan]
    rfl

/-! ### Texts with such a character -/

namespace Poly

/-- **A character that no lexeme has decides what becomes of a text.**  The text fails where its part
before the character fails, and if that can be taken to its end, at the character.  It does not matter
which character it is, what stands behind it, or whether the tokens before it are the beginning of a
sum. -/
theorem parse_append_foreign {f : Char} (hf : isLexical f = false) (hblank : f ≠ ' ')
    (p s : String) :
    parse (p ++ String.singleton f ++ s)
      = .error (.malformed ((TokenStream.ofChars p.toList).failure?.getD p.utf8ByteSize)) := by
  have hfailure := TokenStream.failure?_append_foreign hf hblank p.toList s.toList 0
  rw [Nat.zero_add] at hfailure
  have hchars : (p ++ String.singleton f ++ s).toList = p.toList ++ f :: s.toList := by simp
  rw [parse, hchars, parseChars_of_error (TokenStream.tokensOf_items_of_failure hfailure),
    TokenStream.ofChars]
  cases hp : TokenStream.failure? ⟨p.toList, 0, false⟩ with
  | some offset => rfl
  | none =>
    -- Without a failure the part before the character is all lexemes and blanks, one byte each.
    have hspells := spells_of_tokensOf_items 0 (TokenStream.tokensOf_items_of_no_failure hp)
    have hsize := hspells.utf8ByteSize_ofList
    rw [String.ofList_toList] at hsize
    rw [Option.getD_none, Option.getD_none, hsize]

/-- Behind tokens that are no sum, and behind an exponent that lacks its digits. -/
theorem parse_append_foreign_accent :
    isLexical 'é' = false ∧ 'é' ≠ ' ' ∧
      parse ("2x 3 - -" ++ String.singleton 'é' ++ "^5") = .error (.malformed 8) ∧
      parse ("+ +x^-" ++ String.singleton 'é' ++ "3") = .error (.malformed 4) := by
  have hf : isLexical 'é' = false := by decide
  have hblank : 'é' ≠ ' ' := by decide
  have hend : (TokenStream.ofChars "2x 3 - -".toList).failure?.getD "2x 3 - -".utf8ByteSize = 8 := by
    decide +kernel
  have hcaret : (TokenStream.ofChars "+ +x^-".toList).failure?.getD "+ +x^-".utf8ByteSize = 4 := by
    decide +kernel
  refine ⟨hf, hblank, ?_, ?_⟩
  · rw [parse_append_foreign hf hblank, hend]
  · rw [parse_append_foreign hf hblank, hcaret]

end Poly

end PowerRule
