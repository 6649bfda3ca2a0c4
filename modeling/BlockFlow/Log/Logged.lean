import BlockFlow.Log.Record

/-!
# Work that is logged

Work that may fail and that leaves records behind.  The records of work that failed are those made
before the failure.  What the work results in does not depend on the records, which the lemmas on
`Logged.result` say.
-/

namespace BlockFlow

/-- The outcome of some work, and the records it left behind. -/
structure Logged (ε α : Type) where
  /-- What the work resulted in. -/
  result : Except ε α
  /-- The records, in the order they were made. -/
  records : List LogRecord := []

namespace Logged

variable {ε α β : Type}

/-- One piece of work after the other. -/
def andThen (x : Logged ε α) (f : α → Logged ε β) : Logged ε β :=
  match x.result with
  | .ok a => ⟨(f a).result, x.records ++ (f a).records⟩
  | .error e => ⟨.error e, x.records⟩

instance : Monad (Logged ε) where
  pure a := ⟨.ok a, []⟩
  bind := andThen

/-- Work that leaves no records behind. -/
def silent (result : Except ε α) : Logged ε α :=
  ⟨result, []⟩

/-- Makes a record. -/
def note (r : LogRecord) : Logged ε Unit :=
  ⟨.ok (), [r]⟩

@[simp]
theorem result_pure (a : α) : (pure a : Logged ε α).result = .ok a :=
  rfl

@[simp]
theorem result_bind (x : Logged ε α) (f : α → Logged ε β) :
    (x >>= f).result = x.result.bind fun a => (f a).result := by
  show (andThen x f).result = _
  unfold andThen
  cases x.result <;> rfl

@[simp]
theorem result_silent (result : Except ε α) : (silent result).result = result :=
  rfl

@[simp]
theorem result_note (r : LogRecord) : (note r : Logged ε Unit).result = .ok () :=
  rfl

end Logged

end BlockFlow
