import PowerRule.Poly.Parse
import PowerRule.Record

/-!
Traced runs: a value with the records of the steps that led to it, in their order.

Each operation that leaves records has a traced run of the same name here.  Forgetting the records
gives back the operation: that is the lemma `value_…` of each of them.
-/

namespace PowerRule

/-- A value, and the records of the run that gave it. -/
@[ext] structure Traced (α : Type) where
  value : α
  records : List Record
  deriving DecidableEq

namespace Traced

/-! ### Runs one after the other -/

instance : Monad Traced where
  pure a := ⟨a, []⟩
  bind x f :=
    let y := f x.value
    ⟨y.value, x.records ++ y.records⟩

/-- A run that leaves one record. -/
def emit (r : Record) : Traced Unit := ⟨(), [r]⟩

@[simp] theorem value_pure {α : Type} (a : α) : (pure a : Traced α).value = a := rfl

@[simp] theorem records_pure {α : Type} (a : α) : (pure a : Traced α).records = [] := rfl

@[simp] theorem value_bind {α β : Type} (x : Traced α) (f : α → Traced β) :
    (x >>= f).value = (f x.value).value := rfl

@[simp] theorem records_bind {α β : Type} (x : Traced α) (f : α → Traced β) :
    (x >>= f).records = x.records ++ (f x.value).records := rfl

@[simp] theorem value_map {α β : Type} (f : α → β) (x : Traced α) :
    (f <$> x).value = f x.value := rfl

@[simp] theorem records_map {α β : Type} (f : α → β) (x : Traced α) :
    (f <$> x).records = x.records := List.append_nil _

instance : LawfulMonad Traced := LawfulMonad.mk' Traced
  (fun x => Traced.ext rfl (List.append_nil _))
  (fun _ _ => rfl)
  (fun _ _ _ => Traced.ext rfl (List.append_assoc ..))

@[simp] theorem records_emit (r : Record) : (emit r).records = [r] := rfl

/-! ### Streams -/

/-- The next item of a stream, with its record. -/
def next? (s : TokenStream) : Traced (Option (Item × TokenStream)) :=
  ⟨s.next?, s.next?.toList.map fun p => .ofItem p.1⟩

@[simp] theorem value_next? (s : TokenStream) : (next? s).value = s.next? := rfl

theorem records_next? (s : TokenStream) :
    (next? s).records = s.next?.toList.map fun p => .ofItem p.1 := rfl

/-- All items of a stream, taken one after the other, and the stream after them. -/
def drain (s : TokenStream) : Traced (List Item × TokenStream) :=
  let step := next? s
  match h : step.value with
  | none => ⟨([], s), step.records⟩
  | some (item, s') =>
    have := TokenStream.next?_size_lt h
    let run := drain s'
    ⟨(item :: run.value.1, run.value.2), step.records ++ run.records⟩
termination_by s.size

/-- Draining is taking the next item again and again. -/
theorem drain_eq (s : TokenStream) :
    drain s = next? s >>= fun step =>
      match step with
      | none => pure ([], s)
      | some (item, s') => drain s' >>= fun run => pure (item :: run.1, run.2) := by
  rw [drain]
  dsimp only
  split
  · next h =>
    apply Traced.ext
    · rw [value_bind, h, value_pure]
    · rw [records_bind, h, records_pure, List.append_nil]
  · next h =>
    apply Traced.ext
    · rw [value_bind, h, value_bind, value_pure]
    · rw [records_bind, h, records_bind, records_pure, List.append_nil]

@[simp] theorem value_drain (s : TokenStream) : (drain s).value = s.drain := by
  rw [drain_eq, value_bind, value_next?]
  cases h : s.next? with
  | none => rw [TokenStream.drain_of_next?_none h, value_pure]
  | some p =>
    have := TokenStream.next?_size_lt h
    rw [TokenStream.drain_of_next?_some h, value_bind, value_pure, value_drain p.2]
    rfl
termination_by s.size

/-- Each item leaves its record. -/
@[simp] theorem records_drain (s : TokenStream) : (drain s).records = s.items.map .ofItem := by
  rw [drain_eq, records_bind, value_next?, records_next?, TokenStream.items]
  cases h : s.next? with
  | none =>
    rw [TokenStream.drain_of_next?_none h, records_pure]
    rfl
  | some p =>
    have := TokenStream.next?_size_lt h
    rw [TokenStream.drain_of_next?_some h, records_bind, records_pure, records_drain p.2,
      List.append_nil]
    rfl
termination_by s.size

/-! ### Putting tokens together -/

/-- A fault is on record where it is found. -/
def refuse (f : Fault) : Traced (Except Fault Poly) := do
  emit (.fault f)
  pure (.error f)

/-- The polynomial of these tokens when a sign stands before them. -/
def ofTokensAfter (s : Sign) : List Token → Traced (Except Fault Poly)
  | [] => refuse .endForTerm
  | .operator _ :: _ => refuse .operatorForTerm
  | [.term t] => pure (.ok [t.signed s])
  | .term t :: .operator r :: tokens => do
    let outcome ← ofTokensAfter r tokens
    pure (outcome.map (t.signed s :: ·))
  | .term _ :: .term _ :: _ => refuse .termAfterTerm

/-- The polynomial that a sequence of tokens writes. -/
def sumOfTokens : List Token → Traced (Except Fault Poly)
  | .operator s :: tokens => ofTokensAfter s tokens
  | tokens => ofTokensAfter .plus tokens

/-- The number of terms is on record once they are all there. -/
def ofTokens (tokens : List Token) : Traced (Except Fault Poly) := do
  match ← sumOfTokens tokens with
  | .error f => pure (.error f)
  | .ok p => do
    emit (.parsed p.length)
    pure (.ok p)

@[simp] theorem value_ofTokensAfter (s : Sign) (tokens : List Token) :
    (ofTokensAfter s tokens).value = Poly.ofTokensAfter s tokens := by
  induction s, tokens using ofTokensAfter.induct with
  | case4 s t r tokens ih =>
    show (ofTokensAfter r tokens).value.map _ = (Poly.ofTokensAfter r tokens).map _
    rw [ih]
  | _ => rfl

@[simp] theorem value_sumOfTokens (tokens : List Token) :
    (sumOfTokens tokens).value = Poly.ofTokens tokens := by
  match tokens with
  | [] => rfl
  | .operator s :: tokens => exact value_ofTokensAfter s tokens
  | .term t :: tokens => exact value_ofTokensAfter .plus (.term t :: tokens)

@[simp] theorem value_ofTokens (tokens : List Token) :
    (ofTokens tokens).value = Poly.ofTokens tokens := by
  rw [ofTokens, value_bind, value_sumOfTokens]
  cases Poly.ofTokens tokens <;> rfl

/-- What is on record of a sum: nothing, as long as nothing is wrong. -/
def faultRecords : Except Fault Poly → List Record
  | .error f => [.fault f]
  | .ok _ => []

theorem records_ofTokensAfter (s : Sign) (tokens : List Token) :
    (ofTokensAfter s tokens).records = faultRecords (Poly.ofTokensAfter s tokens) := by
  induction s, tokens using ofTokensAfter.induct with
  | case4 s t r tokens ih =>
    rw [ofTokensAfter, records_bind, records_pure, List.append_nil, ih, Poly.ofTokensAfter]
    cases Poly.ofTokensAfter r tokens <;> rfl
  | _ => rfl

theorem records_sumOfTokens (tokens : List Token) :
    (sumOfTokens tokens).records = faultRecords (Poly.ofTokens tokens) := by
  match tokens with
  | [] => rfl
  | .operator s :: tokens => exact records_ofTokensAfter s tokens
  | .term t :: tokens => exact records_ofTokensAfter .plus (.term t :: tokens)

/-- There is one record, for the outcome. -/
@[simp] theorem records_ofTokens (tokens : List Token) :
    (ofTokens tokens).records = [.ofOutcome (Poly.ofTokens tokens)] := by
  rw [ofTokens, records_bind, records_sumOfTokens, value_sumOfTokens]
  cases Poly.ofTokens tokens <;> rfl

/-- Items of a failed stream are not put together, so they leave no record here. -/
def ofItems (items : List Item) : Traced (Except ParseError Poly) :=
  match tokensOf items with
  | .error e => pure (.error e)
  | .ok tokens => do
    let outcome ← ofTokens tokens
    pure (outcome.mapError .ungrammatical)

@[simp] theorem value_ofItems (items : List Item) : (ofItems items).value = Poly.ofItems items := by
  unfold ofItems Poly.ofItems
  cases tokensOf items with
  | error e => rfl
  | ok tokens =>
    show (ofTokens tokens).value.mapError _ = (Poly.ofTokens tokens).mapError _
    rw [value_ofTokens]

/-- The records of the items come first. -/
def parse (text : String) : Traced (Except ParseError Poly) := do
  let (items, _) ← drain (.ofChars text.toList)
  ofItems items

@[simp] theorem value_parse (text : String) : (parse text).value = Poly.parse text := by
  rw [parse, value_bind, value_drain, value_ofItems]
  rfl

/-! ### Derivatives -/

/-- One record for each derivative. -/
def derivative (p : Poly) : Traced Poly := do
  emit (.differentiated p.length)
  pure p.derivative

/-- As many records as the order. -/
def nthDerivative (p : Poly) : Nat → Traced Poly
  | 0 => pure p
  | n + 1 => do
    let q ← derivative p
    nthDerivative q n

@[simp] theorem value_nthDerivative (p : Poly) (n : Nat) :
    (nthDerivative p n).value = p.nthDerivative n := by
  induction n generalizing p with
  | zero => rfl
  | succ n ih => exact ih p.derivative

theorem records_nthDerivative (p : Poly) (n : Nat) :
    (nthDerivative p n).records = List.replicate n (.differentiated p.length) := by
  induction n generalizing p with
  | zero => rfl
  | succ n ih =>
    show Record.differentiated p.length :: (nthDerivative p.derivative n).records = _
    rw [ih, Poly.length_derivative, List.replicate_succ]

/-! ### From text to text -/

/-- The text of the derivative of an order. -/
def nthDerivativeText (text : String) (order : Nat) : Traced (Except ParseError String) := do
  match ← parse text with
  | .error e => pure (.error e)
  | .ok p => do
    let q ← nthDerivative p order
    pure (.ok q.text)

@[simp] theorem value_nthDerivativeText (text : String) (order : Nat) :
    (nthDerivativeText text order).value = Poly.nthDerivativeText text order := by
  unfold nthDerivativeText Poly.nthDerivativeText
  rw [value_bind, value_parse]
  cases Poly.parse text with
  | error e => rfl
  | ok p =>
    show Except.ok (nthDerivative p order).value.text = _
    rw [value_nthDerivative]
    rfl

/-- The text of the derivative. -/
def derivativeText (text : String) : Traced (Except ParseError String) := nthDerivativeText text 1

/-- A text in the form in which polynomials are written. -/
def reformat (text : String) : Traced (Except ParseError String) := do
  let outcome ← parse text
  pure (outcome.map Poly.text)

@[simp] theorem value_reformat (text : String) : (reformat text).value = Poly.reformat text := by
  unfold reformat Poly.reformat
  rw [value_bind, value_parse]
  rfl

end Traced

end PowerRule
