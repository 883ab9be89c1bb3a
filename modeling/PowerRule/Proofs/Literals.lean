import PowerRule.Proofs.MaximalMunch
import PowerRule.Proofs.Whole

/-!
How literals are read.

Where a text starts with a literal, the longest one is read, and what it is read as depends on the number
alone that it writes:

* below `2 ^ 1024 - 2 ^ 970` it is the nearest magnitude, the even one of two equally near ones;
* from there on it is nothing, and the stream fails where the literal starts.

So each digit counts, however far behind the point it stands.

Main statement: `Literal.scan?_of_isLongest`.
-/

namespace PowerRule

namespace Literal

/-! ### The longest literal -/

/-- The text starts with the literal, and with no longer one. -/
structure IsLongest (l : Literal) (text : List Char) : Prop where
  isPrefix : l.chars <+: text
  length_le : ∀ l' : Literal, l'.chars <+: text → l'.chars.length ≤ l.chars.length

theorem IsLongest.stopsAt {l : Literal} {rest : List Char} (h : l.IsLongest (l.chars ++ rest)) :
    l.StopsAt rest :=
  stopsAt_of_unextended (unextended_of_length_le h.length_le)

/-- Behind any blanks the stream fails at a literal that is not read. -/
theorem next?_of_magnitude?_none {l : Literal} (h : l.magnitude? = none) {rest : List Char}
    (hr : l.StopsAt rest) (n position : Nat) :
    TokenStream.next? ⟨spaces n ++ (l.chars ++ rest), position, false⟩
      = some (.malformed (position + n), ⟨l.chars ++ rest, position + n, true⟩) := by
  have hscan := scan?_of_magnitude?_none h hr
  obtain ⟨c, tail, hchars, hdigit⟩ := l.exists_cons
  rw [hchars, List.cons_append] at hscan ⊢
  apply TokenStream.next?_malformed n position _ _ hscan
  · exact List.append_ne_nil_of_right_ne_nil _ (List.cons_ne_nil _ _)
  · intro hblank
    cases hblank
    cases hdigit

/-- **The longest literal is read as the magnitude nearest to the number that it writes**, or not at
all if the number is too large. -/
theorem scan?_of_isLongest {l : Literal} {text : List Char} (h : l.IsLongest text) :
    ((Coefficient.scan? text).isSome ↔ l.value < 2 ^ (1024 : ℕ) - 2 ^ (970 : ℕ)) ∧
    (∀ c width, Coefficient.scan? text = some (c, width) →
      width = l.chars.length ∧
        ∃ m : Magnitude, c = .finite .plus m ∧ m.IsNearest l.value ∧
          (l.value ≤ 1 / 2 ^ (1075 : ℕ) → m = .zero)) ∧
    (Coefficient.scan? text = none → ∀ n position,
      TokenStream.next? ⟨spaces n ++ text, position, false⟩
        = some (.malformed (position + n), ⟨text, position + n, true⟩)) := by
  obtain ⟨rest, rfl⟩ := h.isPrefix
  have hscan := coefficient_scan?_chars_append h.stopsAt
  refine ⟨?_, ?_, ?_⟩
  · rw [hscan, Option.isSome_map, ← not_le, ← magnitude?_eq_none_iff, Option.isSome_iff_ne_none]
  · intro c width hread
    rw [hscan] at hread
    obtain ⟨m, hm, hpair⟩ := Option.map_eq_some_iff.1 hread
    cases hpair
    have hnear := isNearest_of_magnitude? hm
    exact ⟨rfl, m, rfl, hnear, fun hsmall =>
      hnear.eq (Magnitude.isNearest_zero l.value_nonneg hsmall)⟩
  · intro hnone n position
    rw [hscan, Option.map_eq_none_iff] at hnone
    exact next?_of_magnitude?_none hnone h.stopsAt n position

/-- The digits of `2 ^ 53 + 1`, in the middle between two magnitudes. -/
def tie : Literal :=
  ⟨⟨toDigits (2 ^ (53 : Nat) + 1), toDigits_ne_nil _, fun _ => isDigit_of_mem_toDigits⟩, none⟩

/-- They are read as `2 ^ 53`, which has the even significand. -/
theorem scan?_of_isLongest_tie :
    tie.IsLongest tie.chars ∧
    ∃ m, Coefficient.scan? tie.chars = some (.finite .plus m, 16) ∧ m.IsNearest tie.value ∧
      m.units = 2 ^ (53 : Nat) * unitsPerOne := by
  have hlongest : tie.IsLongest tie.chars :=
    ⟨List.prefix_refl _, fun _ hprefix => hprefix.length_le⟩
  have hscan : Coefficient.scan? tie.chars
      = some (.finite .plus (.whole (2 ^ (53 : Nat)) (Nat.le_refl _)), 16) := by
    decide +kernel
  obtain ⟨_, hread, _⟩ := scan?_of_isLongest hlongest
  obtain ⟨_, m, hm, hnear, _⟩ := hread _ _ hscan
  cases hm
  exact ⟨hlongest, _, hscan, hnear, rfl⟩

/-- A digit behind hundreds of zeros breaks the tie. -/
example : Coefficient.scan? (tie.chars ++ '.' :: (List.replicate 800 '0' ++ ['1']))
    ≠ Coefficient.scan? (tie.chars ++ '.' :: List.replicate 801 '0') := by
  decide +kernel

end Literal

end PowerRule
