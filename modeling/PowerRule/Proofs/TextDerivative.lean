import PowerRule.Proofs.Grammar
import PowerRule.Proofs.Nonfinite

/-!
Derivatives through text.

A text forgets the zero terms of a polynomial, and nothing else.  That does no harm to derivatives: an
exponent rounds to a finite number, so the derivative of a zero term is a zero term again, and

    (p.nthDerivative n).nonzero = (p.nonzero.nthDerivative n).nonzero.

So a derivative may be written and read back on the way to a further one, as long as it is finite
(`nthDerivativeText_trans`).  Where it is not, its text cannot be read.
-/

namespace PowerRule

/-! ### Zero terms -/

/-- The greatest size of an exponent, rounded. -/
theorem roundUnits_greatest_lt :
    roundUnits (9223372036854775808 * unitsPerOne) 1 < unitLimit := by decide +kernel

/-- An exponent rounds to a finite number. -/
theorem Coefficient.exists_ofInt_eq (e : Exponent) : ∃ s m, ofInt e.val = finite s m := by
  have hle : e.val.natAbs * unitsPerOne ≤ 9223372036854775808 * unitsPerOne := by
    have hlow := e.le_val
    have hhigh := e.val_le
    exact Nat.mul_le_mul_right _ (by omega)
  unfold ofInt ofQuotient
  cases hround : Magnitude.round? (e.val.natAbs * unitsPerOne) 1 with
  | some m => exact ⟨_, m, rfl⟩
  | none =>
    -- Not even the greatest size of an exponent reaches the limit of the format.
    have hlimit := Magnitude.round?_eq_none_iff.1 hround
    have hmono := roundUnits_mono 1 hle
    exact absurd roundUnits_greatest_lt (Nat.not_lt.2 (Nat.le_trans hlimit hmono))

theorem Magnitude.round?_zero {den : Nat} (h : 0 < den) : round? 0 den = some zero := by
  have hround := round?_units_mul zero h
  rwa [show zero.units * den = 0 from Nat.zero_mul den] at hround

/-- Zero times an exponent is zero. -/
theorem Coefficient.isZero_mul_ofInt {c : Coefficient} (h : c.isZero = true) (e : Exponent) :
    (c * ofInt e.val).isZero = true := by
  obtain ⟨t, n, hn⟩ := exists_ofInt_eq e
  cases c with
  | finite s m =>
    have hm : m = .zero := Magnitude.isZero_iff.1 h
    rw [hn, finite_mul_finite, hm, show Magnitude.zero.units * n.units = 0 from Nat.zero_mul _,
      ofQuotient, Magnitude.round?_zero unitsPerOne_pos]
    exact Magnitude.isZero_iff.2 rfl
  | infinite s => cases h
  | nan => cases h

theorem Term.isZero_derivative {t : Term} (h : t.isZero = true) : t.derivative.isZero = true :=
  Coefficient.isZero_mul_ofInt h t.exponent

namespace Poly

@[simp] theorem nonzero_nonzero (p : Poly) : p.nonzero.nonzero = p.nonzero := by
  unfold nonzero
  rw [List.filter_filter]
  simp only [Bool.and_self]

/-- Zero terms may be left out before a derivative. -/
theorem nonzero_derivative (p : Poly) : p.derivative.nonzero = p.nonzero.derivative.nonzero := by
  unfold derivative nonzero
  -- Filtering behind the derivative is filtering before it by what its terms become.
  rw [List.filter_map, List.filter_map, List.filter_filter]
  refine congrArg (List.map Term.derivative) (List.filter_congr ?_)
  intro t _
  cases ht : t.isZero with
  | false => simp
  | true => simp [Term.isZero_derivative ht]

/-- Zero terms may be left out before any number of derivatives. -/
theorem nonzero_nthDerivative (p : Poly) (n : Nat) :
    (p.nthDerivative n).nonzero = (p.nonzero.nthDerivative n).nonzero := by
  induction n generalizing p with
  | zero => exact (nonzero_nonzero p).symm
  | succ n ih =>
    calc (p.derivative.nthDerivative n).nonzero
        = (p.derivative.nonzero.nthDerivative n).nonzero := ih p.derivative
      _ = (p.nonzero.derivative.nonzero.nthDerivative n).nonzero := by rw [nonzero_derivative]
      _ = (p.nonzero.derivative.nthDerivative n).nonzero := (ih p.nonzero.derivative).symm

/-- The text shows the terms that are not zero, and nothing else. -/
theorem text_congr {p q : Poly} (h : p.nonzero = q.nonzero) : p.text = q.text := by
  unfold text chars
  rw [h]

theorem text_nthDerivative_congr {p q : Poly} (h : p.nonzero = q.nonzero) (n : Nat) :
    (p.nthDerivative n).text = (q.nthDerivative n).text := by
  refine text_congr ?_
  rw [nonzero_nthDerivative p, nonzero_nthDerivative q, h]

end Poly

/-! ### What is read is finite -/

theorem TermForm.isFinite_of_term? {f : TermForm} {t : Term} (h : f.term? = some t) :
    t.coefficient.isFinite = true := by
  obtain ⟨m, hm⟩ := f.exists_magnitude_of_term? h
  rw [hm]
  rfl

theorem Term.isFinite_signed (s : Sign) {t : Term} (h : t.coefficient.isFinite = true) :
    (t.signed s).coefficient.isFinite = true := by
  obtain ⟨c, e⟩ := t
  obtain ⟨r, m, rfl⟩ := Coefficient.exists_finite h
  rfl

theorem SignedForm.isFinite_of_mapM {others : List SignedForm} {q : Poly}
    (h : others.mapM term? = some q) : ∀ t ∈ q, t.coefficient.isFinite = true := by
  induction others generalizing q with
  | nil =>
    cases h
    exact List.forall_mem_nil _
  | cons a others ih =>
    rw [List.mapM_cons] at h
    obtain ⟨u, hu, hq⟩ := Option.bind_eq_some_iff.1 h
    obtain ⟨q', hq', heq⟩ := Option.bind_eq_some_iff.1 hq
    cases heq
    obtain ⟨v, hv, rfl⟩ := Option.map_eq_some_iff.1 hu
    exact List.forall_mem_cons.2
      ⟨Term.isFinite_signed a.sign (TermForm.isFinite_of_term? hv), ih hq'⟩

namespace Poly

theorem isFinite_of_parse {text : String} {p : Poly} (h : parse text = .ok p) :
    ∀ t ∈ p, t.coefficient.isFinite = true := by
  obtain ⟨f, _, hpoly⟩ := exists_form_of_parseChars h
  obtain ⟨t, ht, hothers⟩ := Option.bind_eq_some_iff.1 hpoly
  obtain ⟨q, hq, rfl⟩ := Option.map_eq_some_iff.1 hothers
  exact List.forall_mem_cons.2
    ⟨Term.isFinite_signed _ (TermForm.isFinite_of_term? ht), SignedForm.isFinite_of_mapM hq⟩

/-! ### One text after another -/

theorem nthDerivativeText_of_parse {text : String} {p : Poly} (h : parse text = .ok p) (n : Nat) :
    nthDerivativeText text n = .ok (p.nthDerivative n).text := by
  rw [nthDerivativeText, h]
  rfl

/-- What is written of a finite polynomial has the same derivatives. -/
theorem nthDerivativeText_text {p : Poly} (h : ∀ t ∈ p, t.coefficient.isFinite = true) (n : Nat) :
    nthDerivativeText p.text n = .ok (p.nthDerivative n).text := by
  rw [nthDerivativeText_of_parse (parse_text_of_finite h)]
  refine congrArg Except.ok (text_nthDerivative_congr ?_ n)
  -- The constant zero that stands for no terms is a zero term again.
  split
  · next hnil =>
    rw [hnil]
    decide +kernel
  · exact nonzero_nonzero p

theorem nthDerivativeText_text_of_nonfinite {p : Poly}
    (h : ∃ t ∈ p, t.coefficient.isFinite = false) (n : Nat) :
    ∃ offset, nthDerivativeText p.text n = .error (.malformed offset) := by
  obtain ⟨offset, hparse⟩ := parse_text_of_nonfinite h
  refine ⟨offset, ?_⟩
  rw [nthDerivativeText, hparse]
  rfl

/-- **Derivatives through text are derivatives in memory.**  A derivative of order `m` that is finite
can be written and differentiated `n` times more; one that is not finite is a text that cannot be read.
Reformatting is the case of order zero, which is always finite. -/
theorem nthDerivativeText_trans {text : String} {p : Poly} (h : parse text = .ok p) :
    (∀ m n, (∀ t ∈ p.nthDerivative m, t.coefficient.isFinite = true) →
      ∃ u v, nthDerivativeText text m = .ok u ∧ nthDerivativeText u n = .ok v ∧
        nthDerivativeText text (m + n) = .ok v) ∧
    (∀ m n, (∃ t ∈ p.nthDerivative m, t.coefficient.isFinite = false) →
      ∃ u offset, nthDerivativeText text m = .ok u ∧
        nthDerivativeText u n = .error (.malformed offset)) ∧
    (∃ u, reformat text = .ok u ∧ (∀ n, nthDerivativeText u n = nthDerivativeText text n) ∧
      reformat u = .ok u) := by
  have hfinite : ∀ m n, (∀ t ∈ p.nthDerivative m, t.coefficient.isFinite = true) →
      ∃ u v, nthDerivativeText text m = .ok u ∧ nthDerivativeText u n = .ok v ∧
        nthDerivativeText text (m + n) = .ok v := by
    intro m n hm
    refine ⟨(p.nthDerivative m).text, ((p.nthDerivative m).nthDerivative n).text,
      nthDerivativeText_of_parse h m, nthDerivativeText_text hm n, ?_⟩
    rw [nthDerivativeText_of_parse h, nthDerivative_add]
  refine ⟨hfinite, ?_, ?_⟩
  · intro m n hm
    obtain ⟨offset, hbad⟩ := nthDerivativeText_text_of_nonfinite hm n
    exact ⟨(p.nthDerivative m).text, offset, nthDerivativeText_of_parse h m, hbad⟩
  · have hp := isFinite_of_parse h
    refine ⟨p.text, nthDerivativeText_of_parse h 0, ?_, nthDerivativeText_text hp 0⟩
    intro n
    rw [nthDerivativeText_text hp, nthDerivativeText_of_parse h]

/-- A negative power, a zero term with a minus, and a power that vanishes at the third derivative. -/
def mixed : Poly :=
  [⟨.one, ⟨-1, by decide, by decide⟩⟩, ⟨.finite .minus .zero, .one⟩,
    ⟨.one, ⟨2, by decide, by decide⟩⟩]

/-- The greatest power; its coefficient overflows at the derivative of order 17. -/
def steep : Poly := [⟨.one, .greatest⟩]

theorem nthDerivativeText_trans_mixed :
    (parse " x^-1 - 0x+x^2" = .ok mixed ∧
      (∀ t ∈ mixed.nthDerivative 2, t.coefficient.isFinite = true) ∧
      nthDerivativeText " x^-1 - 0x+x^2" 2 = .ok "2x^-3+2" ∧
      nthDerivativeText "2x^-3+2" 1 = .ok "-6x^-4" ∧
      nthDerivativeText " x^-1 - 0x+x^2" (2 + 1) = .ok "-6x^-4") ∧
    (parse "x^9223372036854775807" = .ok steep ∧
      (∃ t ∈ steep.nthDerivative 17, t.coefficient.isFinite = false) ∧
      nthDerivativeText "x^9223372036854775807" 17 = .ok "infx^9223372036854775790" ∧
      nthDerivativeText "infx^9223372036854775790" 1 = .error (.malformed 0)) := by
  have hmixed : parse " x^-1 - 0x+x^2" = .ok mixed := by decide +kernel
  have hfinite : ∀ t ∈ mixed.nthDerivative 2, t.coefficient.isFinite = true := by decide +kernel
  have hsecond : nthDerivativeText " x^-1 - 0x+x^2" 2 = .ok "2x^-3+2" := by decide +kernel
  have hthird : nthDerivativeText "2x^-3+2" 1 = .ok "-6x^-4" := by decide +kernel
  have hsteep : parse "x^9223372036854775807" = .ok steep := by decide +kernel
  have hbad : ∃ t ∈ steep.nthDerivative 17, t.coefficient.isFinite = false := by decide +kernel
  have hlast : nthDerivativeText "x^9223372036854775807" 17 = .ok "infx^9223372036854775790" := by
    decide +kernel
  have hread : parse "infx^9223372036854775790" = .error (.malformed 0) := by decide +kernel
  obtain ⟨u, v, hu, hv, hsum⟩ := (nthDerivativeText_trans hmixed).1 2 1 hfinite
  cases hsecond.symm.trans hu
  cases hthird.symm.trans hv
  obtain ⟨w, offset, hw, hoffset⟩ := (nthDerivativeText_trans hsteep).2.1 17 1 hbad
  cases hlast.symm.trans hw
  have hfirst : nthDerivativeText "infx^9223372036854775790" 1 = .error (.malformed 0) := by
    rw [nthDerivativeText, hread]
    rfl
  cases hfirst.symm.trans hoffset
  exact ⟨⟨hmixed, hfinite, hu, hv, hsum⟩, hsteep, hbad, hw, hoffset⟩

end Poly

end PowerRule
