import PowerRule.Proofs.SumRule

/-!
The text of a polynomial determines its terms, but for zero terms.

Nothing stands between two terms but the sign of the second one, and what is not a number has no sign.
Still every text can be cut in one way only.  Each part of a term is such that a seam ends it, so it can
be taken off the front of a text:

    powerChars e ++ rest = powerChars e' ++ rest'      →  e = e' ∧ rest = rest'
    t.size.chars ++ rest = u.size.chars ++ rest'       →  t.size = u.size ∧ rest = rest'
    signedChars t ++ rest = signedChars u ++ rest'     →  t = u ∧ rest = rest'

Finite sizes are told apart by scanning them.  Infinities and what is not a number cannot be scanned,
but their letters are no digits and not the same.

The first plus of a sum is not written.  It comes back from the text alone (`signedChars_append`), and
the text `0` is that of no other polynomial.

Main result: `Poly.text_eq_text_iff`.
-/

namespace PowerRule

variable {rest rest' : List Char} {t u : Term}

/-! ### The parts of a term -/

theorem Term.powerChars_append_inj {e e' : Exponent} (hr : Seam rest) (hr' : Seam rest')
    (h : powerChars e ++ rest = powerChars e' ++ rest') : e = e' ∧ rest = rest' := by
  have hscan := congrArg Token.scanPower h
  rw [scanPower_powerChars_append e hr, scanPower_powerChars_append e' hr'] at hscan
  obtain ⟨rfl, _⟩ := Prod.mk.inj hscan
  exact ⟨rfl, List.append_cancel_left h⟩

namespace Term

/-- A number that is not finite starts with a letter, and there no token starts. -/
theorem scan?_size_append_of_nonfinite (h : t.coefficient.isFinite = false) (rest : List Char) :
    Token.scan? (t.size.chars ++ rest) = none := by
  obtain ⟨c, tail, hchars, hforeign, _⟩ := exists_size_cons_of_nonfinite h
  rw [hchars, List.cons_append]
  exact Token.scan?_of_not_isLexical hforeign _

theorem size_infinite (s : Sign) (e : Exponent) :
    size ⟨.infinite s, e⟩ = ⟨.infinite .plus, e⟩ := by
  cases s
  · rfl
  · rfl

theorem size_nan (e : Exponent) : size ⟨.nan, e⟩ = ⟨.nan, e⟩ := rfl

theorem size_append_inj_of_nonfinite (ht : t.coefficient.isFinite = false)
    (hu : u.coefficient.isFinite = false) (hr : Seam rest) (hr' : Seam rest')
    (h : t.size.chars ++ rest = u.size.chars ++ rest') : t.size = u.size ∧ rest = rest' := by
  obtain ⟨c, e⟩ := t
  obtain ⟨d, f⟩ := u
  match c, d with
  | .infinite s, .infinite r =>
    rw [size_infinite, size_infinite] at h ⊢
    have hpower : powerChars e ++ rest = powerChars f ++ rest' := by
      simpa [chars, Coefficient.chars, Sign.mark, Coefficient.infinityChars] using h
    obtain ⟨rfl, hrest⟩ := powerChars_append_inj hr hr' hpower
    exact ⟨rfl, hrest⟩
  | .nan, .nan =>
    rw [size_nan, size_nan] at h ⊢
    have hpower : powerChars e ++ rest = powerChars f ++ rest' := by
      simpa [chars, Coefficient.chars, Coefficient.nanChars] using h
    obtain ⟨rfl, hrest⟩ := powerChars_append_inj hr hr' hpower
    exact ⟨rfl, hrest⟩
  | .infinite s, .nan =>
    rw [size_infinite, size_nan] at h
    cases h
  | .nan, .infinite r =>
    rw [size_infinite, size_nan] at h
    cases h
  | .finite s m, _ => cases ht
  | _, .finite s m => cases hu

/-- What stands behind a sign can be taken off. -/
theorem size_append_inj (hr : Seam rest) (hr' : Seam rest')
    (h : t.size.chars ++ rest = u.size.chars ++ rest') : t.size = u.size ∧ rest = rest' := by
  have hscan := congrArg Token.scan? h
  cases ht : t.coefficient.isFinite with
  | true =>
    rw [scan?_size_append ht hr] at hscan
    cases hu : u.coefficient.isFinite with
    | true =>
      rw [scan?_size_append hu hr'] at hscan
      have hsize : t.size = u.size := by simpa using (Prod.mk.inj (Option.some.inj hscan)).1
      rw [hsize] at h
      exact ⟨hsize, List.append_cancel_left h⟩
    | false =>
      rw [scan?_size_append_of_nonfinite hu] at hscan
      cases hscan
  | false =>
    rw [scan?_size_append_of_nonfinite ht] at hscan
    cases hu : u.coefficient.isFinite with
    | true =>
      rw [scan?_size_append hu hr'] at hscan
      cases hscan
    | false => exact size_append_inj_of_nonfinite ht hu hr hr' h

end Term

/-! ### Terms behind their signs -/

namespace Poly

/-- In a sum every term has its sign, but what is not a number has none. -/
theorem signedChars_eq_lead (h : t.isZero = false) :
    signedChars t = (if t.coefficient = .nan then [] else [t.sign.lexeme]) ++ t.size.chars := by
  cases hfinite : t.coefficient.isFinite with
  | false => exact signedChars_of_nonfinite hfinite
  | true =>
    have hnan : t.coefficient ≠ .nan := by
      intro hnan
      rw [hnan] at hfinite
      cases hfinite
    rw [signedChars_eq hfinite h, if_neg hnan]
    rfl

/-- A term in a sum can be taken off. -/
theorem signedChars_append_inj (ht : t.isZero = false) (hu : u.isZero = false) (hr : Seam rest)
    (hr' : Seam rest') (h : signedChars t ++ rest = signedChars u ++ rest') :
    t = u ∧ rest = rest' := by
  have hnan : ∀ {v : Term}, v.coefficient = .nan → v.size = v ∧ ∃ tail, v.size.chars = 'N' :: tail := by
    rintro ⟨c, e⟩ rfl
    exact ⟨rfl, _, rfl⟩
  have hsign : ∀ (s : Sign) (left right : List Char), s.lexeme :: left ≠ 'N' :: right := by
    intro s left right heq
    cases s
    · cases heq
    · cases heq
  rw [signedChars_eq_lead ht, signedChars_eq_lead hu, List.append_assoc, List.append_assoc] at h
  -- Only what is not a number has no sign in front, and its text starts like no sign.
  by_cases htn : t.coefficient = .nan
  · obtain ⟨htsize, tail, htail⟩ := hnan htn
    by_cases hun : u.coefficient = .nan
    · obtain ⟨husize, _⟩ := hnan hun
      rw [if_pos htn, if_pos hun] at h
      obtain ⟨hsize, hrest⟩ := Term.size_append_inj hr hr' h
      rw [htsize, husize] at hsize
      exact ⟨hsize, hrest⟩
    · rw [if_pos htn, if_neg hun, htail] at h
      exact absurd h.symm (hsign _ _ _)
  · by_cases hun : u.coefficient = .nan
    · obtain ⟨_, tail, htail⟩ := hnan hun
      rw [if_neg htn, if_pos hun, htail] at h
      exact absurd h (hsign _ _ _)
    · rw [if_neg htn, if_neg hun] at h
      obtain ⟨hlexeme, hbody⟩ := List.cons.inj h
      obtain ⟨hsize, hrest⟩ := Term.size_append_inj hr hr' hbody
      refine ⟨?_, hrest⟩
      rw [← t.size_signed_sign, ← u.size_signed_sign, hsize, Sign.lexeme_injective hlexeme]

theorem signedChars_append_ne_nil (t : Term) (rest : List Char) : signedChars t ++ rest ≠ [] := by
  obtain ⟨d, tail, hchars, _⟩ := t.coefficient.exists_chars_cons
  unfold signedChars
  split
  · simp
  · simp [Term.chars, hchars]

/-- A sum with all its signs can be cut in one way only. -/
theorem flatMap_signedChars_inj {p q : Poly} (hp : ∀ t ∈ p, t.isZero = false)
    (hq : ∀ t ∈ q, t.isZero = false) (h : p.flatMap signedChars = q.flatMap signedChars) : p = q := by
  induction p generalizing q with
  | nil =>
    cases q with
    | nil => rfl
    | cons u q => exact absurd h.symm (signedChars_append_ne_nil u _)
  | cons t p ih =>
    cases q with
    | nil => exact absurd h (signedChars_append_ne_nil t _)
    | cons u q =>
      obtain ⟨ht, hp'⟩ := List.forall_mem_cons.1 hp
      obtain ⟨hu, hq'⟩ := List.forall_mem_cons.1 hq
      obtain ⟨rfl, hrest⟩ := signedChars_append_inj ht hu (seam_flatMap hp') (seam_flatMap hq') h
      rw [ih hp' hq' hrest]

/-! ### The first sign -/

/-- The signs of a sum come back from its text. -/
theorem flatMap_nonzero_eq {p : Poly} (h : p.nonzero ≠ []) :
    p.nonzero.flatMap signedChars = if OwnSign p.chars then p.chars else '+' :: p.chars := by
  obtain ⟨t, q, hq⟩ := List.exists_cons_of_ne_nil h
  have ht : t.isZero = false := isZero_of_mem_nonzero (hq ▸ List.mem_cons_self)
  rw [chars_of_nonzero_cons hq, hq, List.flatMap_cons, signedChars_append ht]

/-- **The text of a polynomial determines its terms that are not zero, and they determine the text.**
This holds for infinities and for what is not a number as well. -/
theorem text_eq_text_iff (p q : Poly) :
    p.text = q.text ↔ (p.filter fun t => !t.isZero) = q.filter fun t => !t.isZero := by
  constructor
  · intro h
    show p.nonzero = q.nonzero
    by_cases hp : p.nonzero = []
    · rw [hp, text_eq_zero_iff.1 (h ▸ text_eq_zero_iff.2 hp)]
    · have hq : q.nonzero ≠ [] := by
        intro hq
        exact hp (text_eq_zero_iff.1 (h ▸ text_eq_zero_iff.2 hq))
      have hchars : p.chars = q.chars := by
        have hlist := congrArg String.toList h
        rwa [text, text, String.toList_ofList, String.toList_ofList] at hlist
      apply flatMap_signedChars_inj
      · intro t ht
        exact isZero_of_mem_nonzero ht
      · intro t ht
        exact isZero_of_mem_nonzero ht
      · rw [flatMap_nonzero_eq hp, flatMap_nonzero_eq hq, hchars]
  · intro h
    exact text_congr h

end Poly

end PowerRule
