import StakeQuorum.Consensus.Round

/-! # Admission of transactions

A transaction is accepted when its signature verifies, it is younger than the timeout, and more
than two thirds of the current validators confirm it in time. Accepted transactions are chained by
hashing.
-/

namespace StakeQuorum.Consensus

structure State where
  /-- The hash chain over the accepted transactions. -/
  lastBlock : Digest := FixedBytes.zero
  /-- The validators of the latest round. -/
  validators : List (Validator Client) := []
  /-- The time of the last acceptance, zero if there was none. -/
  lastConsensus : Int64 := 0
  accepted : UInt64 := 0
  rejected : UInt64 := 0

namespace State

def observe (s : State) (validators : List (Validator Client)) : State := { s with validators }

/-- The hash that follows `last` in the chain when a transaction is accepted. -/
def chain (last txHash : Digest) : Digest := sha256 (last.bytes ++ txHash.bytes)

def extend (s : State) (txHash : Digest) : State :=
  { s with lastBlock := chain s.lastBlock txHash }

def stamp (s : State) (now : Int64) : State := { s with lastConsensus := now }

def count (s : State) (accepted : Bool) : State :=
  if accepted then { s with accepted := s.accepted + 1 } else { s with rejected := s.rejected + 1 }

end State

structure Manager where
  /-- How old a transaction may be, and how long a round lasts, in milliseconds. -/
  timeout : Int64
  pool : AskingPool
  state : State := {}

namespace Manager

/-- A manager with so many workers to begin with, none for as many as there are processors. -/
def new (timeout : Int64) (workers : Nat) (processors : Nat := 0) : Manager :=
  { timeout, pool := WorkerPool.start { name := "validators", size := workers, processors } }

/-- A transaction is fresh when its time is not before now, or less than the timeout ago. -/
def isFresh (timeout now timestamp : Int64) : Bool :=
  now ≤ timestamp || now.toUInt64 - timestamp.toUInt64 < timeout.toUInt64

def checkTime (m : Manager) (clock : Clock) (timestamp : Int64) : Except Failure Bool × Clock :=
  let (now, clock) := clock.read
  (now.map fun now => isFresh m.timeout now timestamp, clock)

/-- What surrounds a call: the validators and the steady clock. -/
structure Surroundings where
  validators : List (Validator Client)
  times : Round.Times

/-- The end of a successful round: the chain grows, then the clock is read. -/
def accept (m : Manager) (clock : Clock) (txHash : Digest) (confirmations : UInt64)
    (size : Nat) : Logged (Except Failure Bool × Manager × Clock) := do
  let m := { m with state := m.state.extend txHash }
  let (now, clock) := clock.read
  match now with
  | .error f => return (.error f, m, clock)
  | .ok now =>
    Log.note .info Log.Category.consensus ("Accepted " ++ txHash.toHex ++ " with " ++
      Bytes.ofWord confirmations ++ "/" ++ Bytes.decimal size ++ " confirmations")
    return (.ok true, { m with state := m.state.stamp now }, clock)

def reject (m : Manager) (clock : Clock) (level : Log.Level) (tx : Transaction) (why : Bytes) :
    Logged (Except Failure Bool × Manager × Clock) := do
  Log.note level Log.Category.consensus ("Rejected " ++ tx.hash.toHex ++ ": " ++ why)
  return (.ok false, m, clock)

/-- Asks the current validators and accepts the transaction if there is a quorum. -/
def decide (m : Manager) (env : Surroundings) (clock : Clock) (tx : Transaction) :
    Logged (Except Failure Bool × Manager × Clock) := do
  let m := { m with state := m.state.observe env.validators }
  let size := env.validators.length
  if env.validators.isEmpty then reject m clock .warn tx "empty validator set"
  else
    let (confirmations, pool) ← Round.collect m.pool m.timeout env.times tx env.validators
    let m := { m with pool }
    if Quorum.reached confirmations (UInt64.ofNat size) then
      accept m clock tx.hash confirmations size
    else
      let count := Bytes.ofWord confirmations ++ "/" ++ Bytes.decimal size ++ " confirmations"
      reject m clock .info tx count

/-- The three checks in order: signature, time, quorum. -/
def run (s : SignatureScheme) (m : Manager) (env : Surroundings) (clock : Clock)
    (tx : Transaction) : Logged (Except Failure Bool × Manager × Clock) := do
  if !tx.verifies s then reject m clock .debug tx "bad signature"
  else match m.checkTime clock tx.timestamp with
    | (.error f, clock) => return (.error f, m, clock)
    | (.ok false, clock) =>
      reject m clock .debug tx ("stale timestamp " ++ Bytes.ofSignedWord tx.timestamp)
    | (.ok true, clock) => decide m env clock tx

/-- Validates a transaction and counts the round. A failure on the way rejects. -/
def validate (s : SignatureScheme) (m : Manager) (env : Surroundings) (clock : Clock)
    (tx : Transaction) : Logged (Bool × Manager × Clock) := do
  let (result, m, clock) ← run s m env clock tx
  match result with
  | .ok accepted => return (accepted, { m with state := m.state.count accepted }, clock)
  | .error f =>
    Log.note .error Log.Category.consensus ("Validation aborted: " ++ f.message)
    return (false, { m with state := m.state.count false }, clock)

end Manager

end StakeQuorum.Consensus
