import StakeQuorum.Interleaving
import StakeQuorum.WorkerPool

/-! # Histories of a pool

The moves of a pool are those of the callers that enqueue tasks and reserve workers, of the workers
that take tasks, finish them and leave, and the one that stops the pool. A history keeps which tasks
were accepted, started and finished, and what was noted of those that raised something.
-/

namespace StakeQuorum.WorkerPool

structure History where
  pool : WorkerPool Nat
  /-- How many tasks were accepted. They are numbered in that order. -/
  accepted : Nat := 0
  /-- The tasks that were started, the oldest first. -/
  started : List Nat := []
  /-- The tasks that were finished, the oldest first. -/
  finished : List Nat := []
  notes : List Log.Note := []

namespace History

inductive Move
  | enqueue
  | reserve (slots : Nat)
  | take
  /-- A task ends, possibly because it raised something with a message. -/
  | finish (task : Nat) (raised : Option Bytes)
  | stop
  /-- A worker goes home. -/
  | leave
  deriving DecidableEq, Repr

def start (pool : WorkerPool Nat) : History := { pool := pool.start }

/-- A worker that is free finds the pool stopped and nothing waiting. -/
def canLeave (p : WorkerPool Nat) : Bool :=
  !p.running && p.queue.isEmpty && p.active.length < p.workers

def step (h : History) : Move → Option History
  | .enqueue =>
    match h.pool.enqueue h.accepted with
    | .ok pool => some { h with pool, accepted := h.accepted + 1 }
    | .error _ => some h
  | .reserve slots => some { h with pool := (h.pool.reserve slots).value }
  | .take => h.pool.take?.map fun (t, pool) => { h with pool, started := h.started ++ [t] }
  | .finish t raised =>
    if t ∈ h.pool.active then
      let ended := h.pool.conclude t raised
      some { h with
        pool := ended.value, finished := h.finished ++ [t], notes := h.notes ++ ended.trace }
    else none
  | .stop => some { h with pool := h.pool.stop }
  | .leave =>
    if canLeave h.pool then some { h with pool := { h.pool with workers := h.pool.workers - 1 } }
    else none

end History

end StakeQuorum.WorkerPool
