import StakeQuorum.WorkerPool

/-! # Jobs

Jobs are tasks that end with a value or raise something. A job may be held until it is released. A
job that promises its result leaves it to be fetched, once; what any other job raises is noted.
-/

namespace StakeQuorum

/-- A task that ends with an `α` or raises something with a message. -/
inductive Job (α : Type)
  | held
  | execute (result : Except Bytes α)
  | promised (ticket : Nat) (result : Except Bytes α)

inductive Promise (α : Type)
  | pending
  | kept (result : Except Bytes α)
  | fetched

inductive FetchError
  | unavailable
  | raised (message : Bytes)

structure JobPool (α : Type) where
  pool : WorkerPool (Job α)
  /-- The values of the jobs that have ended, in the order of their ends. -/
  values : List α := []
  /-- The promises by ticket. -/
  promises : List (Promise α) := []

namespace JobPool

variable {α : Type}

/-- What a job leaves when it ends. -/
def conclude (p : JobPool α) : Job α → Logged (JobPool α)
  | .held => return p
  | .execute (.ok a) => return { p with values := p.values ++ [a] }
  | .execute (.error m) => do
    p.pool.noteRaised m
    return p
  | .promised ticket r =>
    return { p with
      values := p.values ++ r.toOption.toList
      promises := p.promises.set ticket (.kept r) }

/-- Keeps a pool with the jobs that have ended in it. -/
def keep (p : JobPool α) (r : List (Job α) × WorkerPool (Job α)) : Logged (JobPool α) :=
  r.1.foldlM conclude { p with pool := r.2 }

def isHeld : Job α → Bool
  | .held => true
  | _ => false

def settle (p : JobPool α) : Logged (JobPool α) := p.keep (p.pool.settle isHeld)

def release (p : JobPool α) : Logged (JobPool α) := p.keep p.pool.drain

def shutdown (p : JobPool α) : Logged (JobPool α) := p.keep p.pool.shutdown

def add (p : JobPool α) (job : Job α) : Logged (Except PoolError (JobPool α)) :=
  match p.pool.enqueue job with
  | .error e => return .error e
  | .ok pool => .ok <$> settle { p with pool }

/-- Adds a job that promises its result, and gives the ticket to fetch it with. -/
def submit (p : JobPool α) (r : Except Bytes α) : Logged (Except PoolError (JobPool α)) :=
  add { p with promises := p.promises ++ [.pending] } (.promised p.promises.length r)

/-- Fetches a result; `none` if there is no such ticket. The message of what was raised ends at its
first zero byte. -/
def fetch? (p : JobPool α) (ticket : Nat) : Option (Except FetchError α × JobPool α) :=
  p.promises[ticket]?.map fun promise =>
    let p := { p with promises := p.promises.set ticket .fetched }
    match promise with
    | .kept (.ok a) => (.ok a, p)
    | .kept (.error m) => (.error (.raised (Bytes.untilNul m)), p)
    | .pending | .fetched => (.error .unavailable, p)

def reserve (p : JobPool α) (slots : Nat) : Logged (JobPool α) := do
  settle { p with pool := ← p.pool.reserve slots }

end JobPool

end StakeQuorum
