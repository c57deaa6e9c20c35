import StakeQuorum.Bytes

/-! # Reading byte strings

A reader takes bytes from the front of its input. It answers a value or the reason why there is
none, and in both cases leaves the input that it has not consumed.
-/

namespace StakeQuorum

inductive ReadError
  | endOfData
  | nonCanonicalSize
  | sizeTooLarge
  | lengthExceedsData
  deriving DecidableEq, Repr

def ReadError.message : ReadError → Bytes
  | .endOfData => "DataStream::Read(): end of data"
  | .nonCanonicalSize => "non-canonical ReadCompactSize()"
  | .sizeTooLarge => "ReadCompactSize(): size too large"
  | .lengthExceedsData => "Unserialize(): length exceeds data"

/-- A reader of `α`: from the input to a result and the input left unread. -/
def Reader (α : Type) := Bytes → Except ReadError α × Bytes

namespace Reader

variable {α β : Type}

protected def pure (a : α) : Reader α := fun s => (.ok a, s)

/-- Goes on with the unread input after a value, and stops where the first reader failed. -/
protected def bind (r : Reader α) (f : α → Reader β) : Reader β := fun s =>
  match r s with
  | (.ok a, rest) => f a rest
  | (.error e, rest) => (.error e, rest)

def fail (e : ReadError) : Reader α := fun s => (.error e, s)

instance : Monad Reader where
  pure := Reader.pure
  bind := Reader.bind

def available : Reader Nat := fun s => (.ok s.length, s)

/-- The next `n` bytes; if there are fewer, none is consumed. -/
def take (n : Nat) : Reader Bytes := fun s =>
  if n ≤ s.length then (.ok (s.take n), s.drop n) else (.error .endOfData, s)

def number (k : Nat) : Reader Nat := do return Bytes.ofLittleEndian (← take k)

/-- The value that a whole byte string stands for: nothing may be left over. -/
def decode? (r : Reader α) (s : Bytes) : Option α :=
  match r s with
  | (.ok a, []) => some a
  | _ => none

/-! ### How readers run -/

@[simp] theorem pure_run (a : α) (s : Bytes) : (pure a : Reader α) s = (.ok a, s) := rfl

theorem bind_run (r : Reader α) (f : α → Reader β) (s : Bytes) :
    (r >>= f) s = match r s with
      | (.ok a, rest) => f a rest
      | (.error e, rest) => (.error e, rest) := rfl

theorem bind_ok {r : Reader α} {s rest : Bytes} {a : α} (f : α → Reader β)
    (h : r s = (.ok a, rest)) : (r >>= f) s = f a rest := by
  rw [bind_run, h]

theorem bind_error {r : Reader α} {s rest : Bytes} {e : ReadError} (f : α → Reader β)
    (h : r s = (.error e, rest)) : (r >>= f) s = (.error e, rest) := by
  rw [bind_run, h]

theorem take_append (a rest : Bytes) : take a.length (a ++ rest) = (.ok a, rest) := by
  simp [take]

theorem decode?_eq_some_iff {r : Reader α} {s : Bytes} {a : α} :
    r.decode? s = some a ↔ r s = (.ok a, []) := by
  unfold decode?
  split
  · rename_i h
    rw [h]
    simp
  · rename_i h
    simp only [reduceCtorEq, false_iff]
    exact h a

end Reader

end StakeQuorum
