import PowerRule.Term

/-!
Tokens: the lexemes of a polynomial.  A token is a term or an operator, and an operator is a sign.

`scan?` takes the token at the start of a text.  A term is a literal with or without a power of the
variable, or a power alone; the power is `x` or `x^` and an exponent.  Each part is taken as long as
it goes, and a part that has no value is not there:

* digits that round beyond the format are no literal, so no token starts at them;
* an exponent out of range is none, so the power ends at its `x`.
-/

namespace PowerRule

/-- A term or an operator. -/
inductive Token where
  | term (t : Term)
  | operator (s : Sign)
  deriving DecidableEq

namespace Token

/-! ### Kinds -/

/-- The two kinds of tokens. -/
inductive Kind where
  | term
  | operator
  deriving DecidableEq

def kind : Token → Kind
  | term _ => .term
  | operator _ => .operator

/-- How messages call a kind. -/
def Kind.name : Kind → String
  | term => "Term"
  | operator => "Operator"

/-- Equality by value of terms and of operators; a term is never an operator. -/
def sameValue : Token → Token → Bool
  | term t, term u => t.sameValue u
  | operator s, operator r => s = r
  | _, _ => false

/-- The text of a token. -/
def chars : Token → List Char
  | term t => t.chars
  | operator s => [s.lexeme]

/-! ### Scanning -/

/-- The exponent behind the variable, and its width with the `^`; one, and no width, if none is
written. -/
def scanExponent : List Char → Exponent × Nat
  | '^' :: text => ((Exponent.scan? text).map fun (e, width) => (e, width + 1)).getD (.one, 0)
  | _ => (.one, 0)

/-- The exponent of the power at the start of a text, and the width of the power; zero, and no width,
if the variable is not there. -/
def scanPower : List Char → Exponent × Nat
  | 'x' :: text => ((scanExponent text).1, (scanExponent text).2 + 1)
  | _ => (.zero, 0)

/-- The token at the start of a text that starts with no literal, and its width: a power alone, or an
operator. -/
def scanBare? : List Char → Option (Token × Nat)
  | [] => none
  | 'x' :: text => some (term ⟨.one, (scanExponent text).1⟩, (scanExponent text).2 + 1)
  | c :: _ => (Sign.ofChar? c).map fun s => (operator s, 1)

/-- The token at the start of a text, and its width. -/
def scan? (text : List Char) : Option (Token × Nat) :=
  match Coefficient.scan? text with
  | some (c, width) =>
    let power := scanPower (text.drop width)
    some (term ⟨c, power.1⟩, width + power.2)
  | none => scanBare? text

/-! ### Widths -/

theorem scanExponent_width_le (text : List Char) : (scanExponent text).2 ≤ text.length := by
  unfold scanExponent
  split
  · next tail =>
    cases h : Exponent.scan? tail with
    | none => exact Nat.zero_le _
    | some p => exact Nat.succ_le_succ (Exponent.scan?_width h).2
  · exact Nat.zero_le _

theorem scanPower_width_le (text : List Char) : (scanPower text).2 ≤ text.length := by
  unfold scanPower
  split
  · next tail => exact Nat.succ_le_succ (scanExponent_width_le tail)
  · exact Nat.zero_le _

theorem scanBare?_width {text : List Char} {t : Token} {width : Nat}
    (h : scanBare? text = some (t, width)) : 0 < width ∧ width ≤ text.length := by
  unfold scanBare? at h
  split at h
  · cases h
  · next tail =>
    cases h
    exact ⟨Nat.succ_pos _, Nat.succ_le_succ (scanExponent_width_le tail)⟩
  · obtain ⟨s, _, hpair⟩ := Option.map_eq_some_iff.1 h
    cases hpair
    exact ⟨Nat.one_pos, Nat.succ_le_succ (Nat.zero_le _)⟩

/-- A token takes at least one character, and no more than there are. -/
theorem scan?_width {text : List Char} {t : Token} {width : Nat}
    (h : scan? text = some (t, width)) : 0 < width ∧ width ≤ text.length := by
  unfold scan? at h
  split at h
  · next c w hc =>
    have hw := Coefficient.scan?_width hc
    have hp := scanPower_width_le (text.drop w)
    rw [List.length_drop] at hp
    have heq := congrArg Prod.snd (Option.some.inj h)
    dsimp only at heq
    omega
  · exact scanBare?_width h

end Token

end PowerRule
