import StakeQuorum.Interleaving
import StakeQuorum.WorkerPool

/-! # Rounds that share a pool

A round reserves a worker for each of its tasks and then enqueues them one by one. Rounds that go on
at the same time interleave with each other and with the workers.
-/

namespace StakeQuorum.WorkerPool

structure Reservations where
  pool : WorkerPool Nat
  /-- How many tasks were enqueued. They are numbered in that order. -/
  enqueued : Nat := 0
  /-- How many tasks each round has yet to enqueue. -/
  owed : List Nat := []

namespace Reservations

inductive Move
  /-- A round begins with a reservation for its tasks. -/
  | reserve (slots : Nat)
  | enqueue (round : Nat)
  | take
  | finish (task : Nat)
  deriving DecidableEq, Repr

def start (pool : WorkerPool Nat) : Reservations := { pool := pool.start }

def step (r : Reservations) : Move → Option Reservations
  | .reserve slots =>
    some { r with pool := (r.pool.reserve slots).value, owed := r.owed ++ [slots] }
  | .enqueue i =>
    match r.owed[i]?, r.pool.enqueue r.enqueued with
    | some (n + 1), .ok pool =>
      some { pool, enqueued := r.enqueued + 1, owed := r.owed.set i n }
    | _, _ => none
  | .take => r.pool.take?.map fun (_, pool) => { r with pool }
  | .finish t => if t ∈ r.pool.active then some { r with pool := r.pool.finish t } else none

/-- The tasks that wait or are worked on. -/
def load (r : Reservations) : Nat := r.pool.queue.length + r.pool.active.length

end Reservations

end StakeQuorum.WorkerPool
