import StakeQuorum.Consensus.Quorum
import StakeQuorum.Time.Clock
import StakeQuorum.Time.Duration
import StakeQuorum.Transaction
import StakeQuorum.WorkerPool

/-! # Confirmation rounds

In a round every validator is asked to confirm a transaction. The round closes as soon as the
answers so far decide it, or at the deadline; answers that come later do not count.
-/

namespace StakeQuorum

inductive Reply
  | confirmed
  | refused
  | raised (f : Failure)
  /-- Does not answer before the deadline. -/
  | slow

/-- The capability to ask one validator for a confirmation. -/
structure Client where
  confirm : Transaction → Reply

/-- The answers of a round among `size` validators. -/
structure Round where
  size : UInt64
  confirmations : UInt64 := 0
  refusals : UInt64 := 0
  deriving DecidableEq, Repr

namespace Round

def answer (r : Round) (confirms : Bool) : Round :=
  if confirms then { r with confirmations := r.confirmations + 1 }
  else { r with refusals := r.refusals + 1 }

def hasQuorum (r : Round) : Bool := Quorum.reached r.confirmations r.size

/-- No quorum can be reached any more. -/
def isLost (r : Round) : Bool := r.size - r.refusals ≤ Quorum.threshold r.size

/-- Nothing that is still to come can change whether there is a quorum. -/
def isDecided (r : Round) : Bool :=
  r.hasQuorum || r.isLost || r.confirmations + r.refusals == r.size

def text (r : Round) : Bytes :=
  "Round closed: " ++ Bytes.ofWord r.confirmations ++ " confirmed, " ++ Bytes.ofWord r.refusals ++
    " refused, " ++ Bytes.ofWord r.size ++ " validators"

end Round

/-- The pool whose workers ask the validators. A task is the identity of a validator. -/
abbrev AskingPool := WorkerPool Bytes

namespace Round

/-- The times of a round on the steady clock, in nanoseconds. -/
structure Times where
  start : Int64
  /-- When the validators are asked, which is later. -/
  asking : Int64
  deriving DecidableEq, Repr

structure Progress where
  round : Round
  pool : AskingPool

/-- What a validator answers with so much time left; `none` if it does not answer in time. -/
def ask (tx : Transaction) (remaining : Int64) (v : Validator Client) : Logged (Option Bool) := do
  match v.client with
  | none => return some false
  | some client =>
    if remaining ≤ 0 then return some false
    else match client.confirm tx with
      | .confirmed => return some true
      | .refused => return some false
      | .slow => return none
      | .raised f =>
        Log.note .warn Log.Category.consensus
          ("Validator " ++ v.identity ++ " failed: " ++ f.message)
        return some false

/-- A worker takes up the query of one validator. A slow validator keeps it. -/
def query (tx : Transaction) (remaining : Int64) (p : Progress) (v : Validator Client) :
    Logged Progress := do
  match p.pool.enqueue v.identity with
  | .error e =>
    Log.note .error Log.Category.consensus
      ("Cannot query validator " ++ v.identity ++ ": " ++ e.message)
    return { p with round := p.round.answer false }
  | .ok pool =>
    match pool.take? with
    | none => return { p with pool }
    | some (task, pool) =>
      if p.round.isDecided then return { p with pool := pool.finish task }
      else match ← ask tx remaining v with
        | none => return { p with pool }
        | some confirms =>
          return { round := p.round.answer confirms, pool := pool.finish task }

def queryAll (tx : Transaction) (remaining : Int64) :
    List (Validator Client) → Progress → Logged Progress
  | [], p => return p
  | v :: vs, p => do queryAll tx remaining vs (← query tx remaining p v)

/-- At the deadline every worker is free again. -/
def Progress.close (p : Progress) : Progress :=
  if p.round.isDecided then p else { p with pool := { p.pool with queue := [], active := [] } }

/-- Asks every validator to confirm a transaction, with a timeout from the start of the round on.
Answers the confirmations that were counted when the round closed. -/
def collect (pool : AskingPool) (timeout : Int64) (times : Times) (tx : Transaction)
    (validators : List (Validator Client)) : Logged (UInt64 × AskingPool) := do
  if validators.isEmpty then return (0, pool)
  else
    let n := validators.length
    let pool ← pool.reserve n
    let remaining := (Deadline.after times.start timeout).remaining times.asking
    let round : Round := { size := UInt64.ofNat n }
    let p ← queryAll tx remaining validators { round, pool }
    Log.note .debug Log.Category.consensus p.round.text
    return (p.round.confirmations, p.close.pool)

end Round

end StakeQuorum
