import PowerRule.Token

/-!
Token streams: a text that is taken token by token.

A stream is what is left of the text, how many bytes of it have been taken, and whether it has
failed.  `next?` skips blanks (U+0020 and nothing else) and takes the token behind them.  Where no
token starts it gives one item that says where, and the stream has failed; after that, and at the end
of the text, there is no next item.  Blanks at the end of a text are followed by no token, so there
the stream fails as well.

Blanks and lexemes are ASCII, so the number of their characters is the number of their bytes.

Each item makes the stream smaller (`next?_size_lt`), so that it can be drained.
-/

namespace PowerRule

/-- What a stream gives: a token with the offset of its first character, or the offset at which no
token starts. -/
inductive Item where
  | token (start : Nat) (t : Token)
  | malformed (offset : Nat)
  deriving DecidableEq

/-- A text of which some part has been taken. -/
structure TokenStream where
  /-- What is left of the text. -/
  rest : List Char
  /-- The offset in bytes at which it is left. -/
  position : Nat
  /-- Whether a place without a token was met. -/
  failed : Bool
  deriving DecidableEq

namespace TokenStream

/-! ### One item -/

/-- The stream of a whole text. -/
def ofChars (text : List Char) : TokenStream := ⟨text, 0, false⟩

def isBlank (c : Char) : Bool := c = ' '

/-- The next item, and the stream after it. -/
def next? (s : TokenStream) : Option (Item × TokenStream) :=
  if s.failed || s.rest.isEmpty then none
  else
    let start := s.position + (s.rest.takeWhile isBlank).length
    let body := s.rest.dropWhile isBlank
    match Token.scan? body with
    | some (t, width) => some (.token start t, ⟨body.drop width, start + width, false⟩)
    | none => some (.malformed start, ⟨body, start, true⟩)

/-- The number of items a stream can still give is at most its size. -/
def size (s : TokenStream) : Nat := s.rest.length + if s.failed then 0 else 1

theorem next?_size_lt {s s' : TokenStream} {item : Item} (h : s.next? = some (item, s')) :
    s'.size < s.size := by
  have hbody : (s.rest.dropWhile isBlank).length ≤ s.rest.length :=
    (List.dropWhile_sublist isBlank).length_le
  unfold next? at h
  split at h
  · cases h
  · next hgo =>
    have hfailed : s.failed = false := by
      cases hf : s.failed
      · rfl
      · simp [hf] at hgo
    dsimp only at h
    split at h
    · next t width hscan =>
      have hwidth := Token.scan?_width hscan
      cases h
      simp only [size, hfailed, Bool.false_eq_true, if_false, List.length_drop]
      omega
    · cases h
      simp only [size, hfailed, Bool.false_eq_true, if_false, if_true]
      omega

/-! ### All items -/

/-- All items that are left, and the stream after them. -/
def drain (s : TokenStream) : List Item × TokenStream :=
  match h : s.next? with
  | none => ([], s)
  | some (item, s') =>
    have := next?_size_lt h
    let (items, last) := s'.drain
    (item :: items, last)
termination_by s.size

/-- All items that are left. -/
def items (s : TokenStream) : List Item := s.drain.1

/-- The stream when all items have been taken. -/
def drained (s : TokenStream) : TokenStream := s.drain.2

theorem drain_of_next?_none {s : TokenStream} (h : s.next? = none) : s.drain = ([], s) := by
  rw [drain]
  split
  · rfl
  · next h' => rw [h] at h'; cases h'

theorem drain_of_next?_some {s s' : TokenStream} {item : Item} (h : s.next? = some (item, s')) :
    s.drain = (item :: s'.items, s'.drained) := by
  rw [drain]
  split
  · next h' => rw [h] at h'; cases h'
  · next h' =>
    rw [h] at h'
    cases h'
    rfl

end TokenStream

end PowerRule
