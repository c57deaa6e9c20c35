import StakeQuorum.Log.Note

/-! # Worker pools

Tasks wait in a queue and free workers take them in order. A pool accepts tasks while it runs and
fewer than its limit are waiting. Reserving adds workers, so that tasks which come next find a free
one. A pool that is shut down accepts nothing and finishes what it has accepted.
-/

namespace StakeQuorum

inductive PoolError
  | notRunning (name : Bytes)
  | queueFull (name : Bytes)
  deriving DecidableEq, Repr

/-- The message of an error, which ends at its first zero byte. -/
def PoolError.message : PoolError → Bytes
  | notRunning name => Bytes.untilNul ("ThreadPool " ++ name ++ " not running")
  | queueFull name => Bytes.untilNul ("ThreadPool " ++ name ++ " queue full")

structure WorkerPool (τ : Type) where
  name : Bytes := "pool"
  /-- The number of workers that a start brings in, zero for one per processor. -/
  size : Nat
  /-- How many processors there are, zero if that is not known. -/
  processors : Nat := 0
  /-- How many tasks may wait. -/
  limit : Nat := 10000
  running : Bool := false
  workers : Nat := 0
  /-- The waiting tasks, the oldest first. -/
  queue : List τ := []
  /-- The tasks that are being worked on. -/
  active : List τ := []

namespace WorkerPool

variable {τ : Type}

/-- The number of workers that a start brings in. There are two if neither their number nor that
of the processors is known. -/
def initialWorkers (p : WorkerPool τ) : Nat :=
  if p.size ≠ 0 then p.size else if p.processors ≠ 0 then p.processors else 2

def start (p : WorkerPool τ) : WorkerPool τ :=
  if p.running then p else { p with running := true, workers := p.initialWorkers }

def enqueue (p : WorkerPool τ) (t : τ) : Except PoolError (WorkerPool τ) :=
  if !p.running then .error (.notRunning p.name)
  else if p.limit ≤ p.queue.length then .error (.queueFull p.name)
  else .ok { p with queue := p.queue ++ [t] }

/-- The number of workers that leaves `slots` of them free. -/
def needed (p : WorkerPool τ) (slots : Nat) : Nat := p.active.length + p.queue.length + slots

/-- Adds workers until `slots` of them are free for tasks to come. -/
def reserve (p : WorkerPool τ) (slots : Nat) : Logged (WorkerPool τ) := do
  if !p.running || p.needed slots ≤ p.workers then return p
  else
    Log.note .debug Log.Category.default ("ThreadPool " ++ p.name ++ " growing from " ++
      Bytes.decimal p.workers ++ " to " ++ Bytes.decimal (p.needed slots) ++ " workers")
    return { p with workers := p.needed slots }

/-- A free worker takes the oldest waiting task. -/
def take? (p : WorkerPool τ) : Option (τ × WorkerPool τ) :=
  match p.queue with
  | [] => none
  | t :: queue =>
    if p.active.length < p.workers then some (t, { p with queue, active := p.active ++ [t] })
    else none

def finish [BEq τ] (p : WorkerPool τ) (t : τ) : WorkerPool τ :=
  { p with active := p.active.erase t }

def noteRaised (p : WorkerPool τ) (message : Bytes) : Logged Unit :=
  Log.note .error Log.Category.default
    ("ThreadPool " ++ p.name ++ ": task threw: " ++ Bytes.untilNul message)

/-- What a worker does when its task ends: it catches and notes what the task raised, if anything,
and is free again. -/
def conclude [BEq τ] (p : WorkerPool τ) (t : τ) (raised : Option Bytes) :
    Logged (WorkerPool τ) := do
  if let some message := raised then p.noteRaised message
  return p.finish t

def stop (p : WorkerPool τ) : WorkerPool τ := { p with running := false }

/-- Lets free workers take the waiting tasks one after another. A task that is blocked keeps its
worker, and any other is done at once; those that are done are listed in order. -/
def settleFrom (blocked : τ → Bool) : List τ → WorkerPool τ → List τ × WorkerPool τ
  | [], p => ([], { p with queue := [] })
  | t :: queue, p =>
    if p.workers ≤ p.active.length then ([], { p with queue := t :: queue })
    else if blocked t then settleFrom blocked queue { p with active := p.active ++ [t] }
    else
      let (done, p) := settleFrom blocked queue p
      (t :: done, p)

/-- Works until no task can go on. -/
def settle (blocked : τ → Bool) (p : WorkerPool τ) : List τ × WorkerPool τ :=
  settleFrom blocked p.queue p

/-- Finishes the tasks that are being worked on. -/
def unblock (p : WorkerPool τ) : WorkerPool τ := { p with active := [] }

/-- Finishes everything that was accepted. -/
def drain (p : WorkerPool τ) : List τ × WorkerPool τ := p.unblock.settle fun _ => false

/-- Stops, finishes everything that was accepted, and sends the workers home. -/
def shutdown (p : WorkerPool τ) : List τ × WorkerPool τ :=
  let (done, p) := p.stop.drain
  (done, { p with workers := 0 })

end WorkerPool

end StakeQuorum
