import StakeQuorum.Consensus.Manager
import StakeQuorum.Interleaving

/-! # Managers with concurrent callers

Several callers may have transactions validated at once. Each of them changes the state of the
manager in steps: it notes the validators, it extends the hash chain if there is a quorum, and it
counts the outcome. The steps of different callers interleave.
-/

namespace StakeQuorum.Consensus

inductive Stage
  | checking
  /-- The validators have been noted. -/
  | asking
  /-- The chain has been extended; the flag says whether the clock could be read then. -/
  | chained (stamped : Bool)
  | over (accepted : Bool)
  deriving DecidableEq, Repr

structure Call where
  tx : Transaction
  stage : Stage := .checking

structure Shared where
  state : State := {}
  calls : List Call := []
  /-- The transactions of the hash chain, the oldest first. -/
  chain : List Transaction := []

namespace Shared

inductive Move
  | enter (tx : Transaction)
  | observe (call : Nat) (validators : List (Validator Client))
  /-- There was a quorum. The time is missing if the clock fails. -/
  | extend (call : Nat) (now : Option Int64)
  | count (call : Nat)

/-- A call goes on to a stage and leaves a state. -/
def advance (s : Shared) (i : Nat) (call : Call) (stage : Stage) (state : State) : Shared :=
  { s with state, calls := s.calls.set i { call with stage } }

def step (s : Shared) : Move → Option Shared
  | .enter tx => some { s with calls := s.calls ++ [{ tx }] }
  | .observe i validators => do
    let call ← s.calls[i]?
    match call.stage with
    | .checking => some (s.advance i call .asking (s.state.observe validators))
    | _ => none
  | .extend i now => do
    let call ← s.calls[i]?
    match call.stage with
    | .asking =>
      let state := s.state.extend call.tx.hash
      let s := { s with chain := s.chain ++ [call.tx] }
      match now with
      | some now => some (s.advance i call (.chained true) (state.stamp now))
      | none => some (s.advance i call (.chained false) state)
    | _ => none
  | .count i => do
    let call ← s.calls[i]?
    match call.stage with
    | .checking | .asking | .chained false =>
      some (s.advance i call (.over false) (s.state.count false))
    | .chained true => some (s.advance i call (.over true) (s.state.count true))
    | .over _ => none

/-- The hash chain over transactions. -/
def chainOf (txs : List Transaction) : Digest :=
  txs.foldl (fun last tx => State.chain last tx.hash) FixedBytes.zero

end Shared

end StakeQuorum.Consensus
