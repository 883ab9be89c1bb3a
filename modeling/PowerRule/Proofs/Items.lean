import PowerRule.Proofs.Spelling

/-!
The items of a stream: tokens, each with its place, and at most one failure behind them.

    s.items = s.placedTokens.map PlacedToken.item ++ s.failure?.toList.map Item.malformed

for a stream that has not failed yet.  So the tokens and the failure are all there is to know of the
items, and what they come to is the failure, or else the tokens (`tokensOf_items`).

A token stands in the text where its offset says, in bytes (`PlacedToken.StandsIn`), and offsets grow
(`pairwise_start_lt`): each token takes at least one byte, and the next one is looked for behind it.
-/

namespace PowerRule

/-! ### Places -/

/-- A token and the offset of its first character. -/
structure PlacedToken where
  start : Nat
  token : Token
  deriving DecidableEq

namespace PlacedToken

def item (a : PlacedToken) : Item := .token a.start a.token

/-- The text holds a lexeme of the token, with so many bytes before it.  A lexeme has no blanks, so they
are before it as well. -/
def StandsIn (a : PlacedToken) (text : List Char) : Prop :=
  ∃ (before : List Char) (l : Lexeme) (after : List Char),
    text = before ++ (l.chars ++ after) ∧ l.token? = some a.token ∧
      a.start = (String.ofList before).utf8ByteSize

end PlacedToken

namespace Item

/-- The token of an item with its place, if it has one. -/
def placed? : Item → Option PlacedToken
  | token start t => some ⟨start, t⟩
  | malformed _ => none

/-- The offset at which no token starts, if the item says so. -/
def failure? : Item → Option Nat
  | token _ _ => none
  | malformed offset => some offset

end Item

namespace TokenStream

/-- The tokens that a stream still gives. -/
def placedTokens (s : TokenStream) : List PlacedToken := s.items.filterMap Item.placed?

/-- The offset at which a stream will fail, if it does. -/
def failure? (s : TokenStream) : Option Nat := s.items.findSome? Item.failure?

/-! ### Along a stream -/

section Steps

variable (n position : Nat)

theorem placedTokens_nil : placedTokens ⟨[], position, false⟩ = [] := by
  rw [placedTokens, items_nil]
  rfl

theorem failure?_nil : failure? ⟨[], position, false⟩ = none := by
  rw [failure?, items_nil]
  rfl

variable {lexeme rest : List Char} {t : Token}

theorem placedTokens_lexeme (h : Token.scan? (lexeme ++ rest) = some (t, lexeme.length)) :
    placedTokens ⟨spaces n ++ (lexeme ++ rest), position, false⟩
      = ⟨position + n, t⟩ :: placedTokens ⟨rest, position + n + lexeme.length, false⟩ := by
  rw [placedTokens, items_lexeme n position h]
  rfl

theorem failure?_lexeme (h : Token.scan? (lexeme ++ rest) = some (t, lexeme.length)) :
    failure? ⟨spaces n ++ (lexeme ++ rest), position, false⟩
      = failure? ⟨rest, position + n + lexeme.length, false⟩ := by
  rw [failure?, items_lexeme n position h]
  rfl

variable {body : List Char} (hne : spaces n ++ body ≠ []) (hhead : body.head? ≠ some ' ')
  (h : Token.scan? body = none)

include hne hhead h

theorem placedTokens_malformed : placedTokens ⟨spaces n ++ body, position, false⟩ = [] := by
  rw [placedTokens, items_malformed n position hne hhead h]
  rfl

theorem failure?_malformed :
    failure? ⟨spaces n ++ body, position, false⟩ = some (position + n) := by
  rw [failure?, items_malformed n position hne hhead h]
  rfl

end Steps

/-- **The items of a stream are its tokens and its failure.** -/
theorem items_eq (text : List Char) (position : Nat) :
    items ⟨text, position, false⟩
      = (placedTokens ⟨text, position, false⟩).map PlacedToken.item
        ++ (failure? ⟨text, position, false⟩).toList.map Item.malformed := by
  induction text using streamInduction generalizing position with
  | nil =>
    rw [items_nil, placedTokens_nil, failure?_nil]
    rfl
  | token n lexeme rest t hscan ih =>
    rw [items_lexeme n position hscan, placedTokens_lexeme n position hscan,
      failure?_lexeme n position hscan, ih]
    rfl
  | malformed n body hne hhead hscan =>
    rw [items_malformed n position hne hhead hscan,
      placedTokens_malformed n position hne hhead hscan,
      failure?_malformed n position hne hhead hscan]
    rfl

/-! ### What the items come to -/

theorem tokensOf_map_item (tokens : List PlacedToken) :
    tokensOf (tokens.map PlacedToken.item) = .ok (tokens.map PlacedToken.token) := by
  induction tokens with
  | nil => rfl
  | cons a tokens ih =>
    rw [List.map_cons, PlacedToken.item, tokensOf_token, ih]
    rfl

/-- A stream that fails comes to its failure. -/
theorem tokensOf_items_of_failure {text : List Char} {position offset : Nat}
    (h : failure? ⟨text, position, false⟩ = some offset) :
    tokensOf (items ⟨text, position, false⟩) = .error (.malformed offset) := by
  rw [items_eq, tokensOf_append, tokensOf_map_item, h]
  rfl

/-- A stream that does not fail comes to its tokens. -/
theorem tokensOf_items_of_no_failure {text : List Char} {position : Nat}
    (h : failure? ⟨text, position, false⟩ = none) :
    tokensOf (items ⟨text, position, false⟩)
      = .ok ((placedTokens ⟨text, position, false⟩).map PlacedToken.token) := by
  rw [items_eq, h]
  show tokensOf (_ ++ []) = _
  rw [List.append_nil, tokensOf_map_item]

/-! ### Where the tokens stand -/

theorem utf8ByteSize_spaces (n : Nat) : (String.ofList (spaces n)).utf8ByteSize = n := by
  have hblank : ∀ c ∈ spaces n, isLexical c = true ∨ c = ' ' :=
    fun c hc => .inr (List.eq_of_mem_replicate hc)
  rw [utf8ByteSize_ofList_of_isLexical hblank, spaces, List.length_replicate]

theorem utf8ByteSize_lexeme (l : Lexeme) : (String.ofList l.chars).utf8ByteSize = l.chars.length :=
  utf8ByteSize_ofList_of_isLexical fun _ hc => .inl (l.isLexical_of_mem hc)

/-- The tokens of a stream stand in its text. -/
theorem exists_of_mem_placedTokens {text : List Char} {position : Nat} {a : PlacedToken}
    (ha : a ∈ placedTokens ⟨text, position, false⟩) :
    ∃ start, a.start = position + start ∧ (PlacedToken.mk start a.token).StandsIn text := by
  induction text using streamInduction generalizing position with
  | nil =>
    rw [placedTokens_nil] at ha
    cases ha
  | token n lexeme rest t hscan ih =>
    obtain ⟨l, hchars, hvalue⟩ := Lexeme.exists_of_scan? hscan
    rw [List.take_left] at hchars
    subst hchars
    rw [placedTokens_lexeme n position hscan] at ha
    rcases List.mem_cons.1 ha with rfl | htail
    · exact ⟨n, rfl, spaces n, l, rest, rfl, hvalue, (utf8ByteSize_spaces n).symm⟩
    · -- A later token has the first one, with its blanks, before it.
      obtain ⟨start, hstart, before, l', after, rfl, hvalue', hbefore⟩ := ih htail
      refine ⟨n + l.chars.length + start, by omega, spaces n ++ (l.chars ++ before), l', after, ?_,
        hvalue', ?_⟩
      · simp only [List.append_assoc]
      · rw [String.ofList_append, String.utf8ByteSize_append, String.ofList_append,
          String.utf8ByteSize_append, utf8ByteSize_spaces, utf8ByteSize_lexeme, ← hbefore,
          Nat.add_assoc]
  | malformed n body hne hhead hscan =>
    rw [placedTokens_malformed n position hne hhead hscan] at ha
    cases ha

theorem standsIn_of_mem_placedTokens {text : List Char} {a : PlacedToken}
    (ha : a ∈ placedTokens (ofChars text)) : a.StandsIn text := by
  obtain ⟨start, hstart, hstands⟩ := exists_of_mem_placedTokens ha
  rw [Nat.zero_add] at hstart
  subst hstart
  exact hstands

/-- **Each token stands behind the one before it.** -/
theorem pairwise_start_lt (text : List Char) (position : Nat) :
    (placedTokens ⟨text, position, false⟩).Pairwise fun a b => a.start < b.start := by
  induction text using streamInduction generalizing position with
  | nil =>
    rw [placedTokens_nil]
    exact .nil
  | token n lexeme rest t hscan ih =>
    rw [placedTokens_lexeme n position hscan]
    refine .cons ?_ (ih _)
    intro b hb
    obtain ⟨start, hstart, _⟩ := exists_of_mem_placedTokens hb
    have hwidth := (Token.scan?_width hscan).1
    dsimp only
    omega
  | malformed n body hne hhead hscan =>
    rw [placedTokens_malformed n position hne hhead hscan]
    exact .nil

end TokenStream

end PowerRule
