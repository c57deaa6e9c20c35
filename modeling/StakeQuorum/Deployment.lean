import StakeQuorum.Consensus.Manager
import StakeQuorum.Stake.Ledger

/-! # Deployments

A deployment is a ledger with its validator sets and, possibly, a manager that admits transactions.
One set is kept by hand and at most one follows the ledger. A set that a manager consults goes on
following the ledger for as long as the manager stays.
-/

namespace StakeQuorum

open Stake (Ledger)

inductive SetChoice
  | byHand
  /-- The set that was opened on the ledger under an id. -/
  | following (id : Nat)
  deriving DecidableEq, Repr

inductive TimeSource
  | own
  | wall
  deriving DecidableEq, Repr

/-- A manager with what it was given. -/
structure Employed where
  manager : Consensus.Manager
  choice : SetChoice
  source : TimeSource

structure Deployment where
  ledger : Ledger Client
  byHand : ValidatorSet Client := {}
  /-- The id of the set that follows the ledger. -/
  following : Option Nat := none
  employed : Option Employed := none
  factories : Stake.Factories Client
  /-- How many processors there are, zero if that is not known. -/
  processors : Nat := 0
  /-- The clock that a manager may have of its own. -/
  clock : Clock := Clock.constant 0
  wall : WallClock := {}

/-- A manager needs a validator set. -/
inductive ManagerError
  | noRegistry
  deriving DecidableEq, Repr

def ManagerError.message : ManagerError → Bytes
  | .noRegistry => "ConsensusManager requires a validator registry"

namespace Deployment

def validators (d : Deployment) : SetChoice → List (Validator Client)
  | .byHand => d.byHand.values
  | .following id => ((d.ledger.registry? id).map (·.members.values)).getD []

/-- A set with this id is in use. -/
def uses (d : Deployment) (id : Nat) : Bool :=
  d.following == some id || (d.employed.map (·.choice)) == some (.following id)

/-! ### The ledger -/

def withLedger {α : Type} (d : Deployment) (x : Noticed (α × Ledger Client)) :
    Noticed (α × Deployment) := do
  let (a, ledger) ← x
  return (a, { d with ledger })

def setStore (d : Deployment) (db : Store.Database) : Deployment :=
  { d with ledger := { d.ledger with db } }

def editStore (d : Deployment) (f : ByteMap Bytes → ByteMap Bytes) : Deployment :=
  d.setStore { d.ledger.db with contents := f d.ledger.db.contents }

def withStore {α : Type} (d : Deployment) (x : Logged (α × Store.Database)) :
    Noticed (α × Deployment) := do
  let (a, db) ← liftM x
  return (a, d.setStore db)

def deposit (d : Deployment) (key : Bytes) (amount : Amount) :
    Noticed (Except Host.HostError Unit × Deployment) :=
  d.withStore (Host.deposit d.ledger.db key amount)

def apply (d : Deployment) (caller : Bytes) (signers : List Bytes) (changes : List Change) :
    Noticed (Except Host.HostError Unit × Deployment) :=
  d.withStore (Host.apply d.ledger.db caller signers changes)

def createStake (d : Deployment) (staker account : Bytes) (amount : Amount) (lockPeriod : Int64) :
    Noticed (Stake.Outcome Stake.Record × Deployment) :=
  d.withLedger (d.ledger.createStake d.factories staker account amount lockPeriod)

def withdrawStake (d : Deployment) (account requester : Bytes) (amount : Amount) :
    Noticed (Stake.Outcome Stake.Record × Deployment) :=
  d.withLedger (d.ledger.withdrawStake d.factories account requester amount)

def processInstruction (d : Deployment) (signers : List Bytes) (staker account data : Bytes) :
    Noticed (Stake.Outcome Stake.Record × Deployment) :=
  d.withLedger (d.ledger.processInstruction d.factories signers staker account data)

def listen (d : Deployment) (raises : Option Failure) : Nat × Deployment :=
  let (id, ledger) := d.ledger.addListener (.observer raises)
  (id, { d with ledger })

/-- Takes a listener away. A set that loses its listener is only rebuilt on request. -/
def unlisten (d : Deployment) (id : Nat) : Deployment :=
  { d with ledger := d.ledger.removeListener id }

/-! ### The set that follows the ledger -/

/-- Takes a set off the ledger unless it is in use. -/
def release (d : Deployment) (id : Nat) : Deployment :=
  if d.uses id then d else { d with ledger := d.ledger.closeRegistry id }

def closeRegistry (d : Deployment) : Deployment :=
  match d.following with
  | none => d
  | some id => release { d with following := none } id

/-- Replaces the set that follows the ledger by a new one. -/
def openRegistry (d : Deployment) (minimum : Amount) (usesFactory : Bool) :
    Noticed (Except Failure Unit × Deployment) := do
  let d := d.closeRegistry
  let (result, ledger) ← d.ledger.openRegistry d.factories minimum usesFactory
  match result with
  | .error f => return (.error f, { d with ledger })
  | .ok id => return (.ok (), { d with ledger, following := some id })

/-- Rebuilds the set that follows the ledger; `none` if there is none. -/
def refresh (d : Deployment) : Noticed (Option (Option Failure) × Deployment) :=
  match d.following with
  | none => return (none, d)
  | some id => d.withLedger do
    let (failure, ledger) ← d.ledger.refresh d.factories id
    return (some failure, ledger)

/-! ### The manager -/

def dismiss (d : Deployment) : Deployment :=
  match d.employed with
  | none => d
  | some e =>
    let d := { d with employed := none }
    match e.choice with
    | .byHand => d
    | .following id => release d id

/-- Replaces the manager by a new one; there is none if it has no validators to consult. -/
def employ (d : Deployment) (choice : Option SetChoice) (source : TimeSource) (timeout : Int64)
    (workers : Nat) : Except ManagerError Unit × Deployment :=
  let d := d.dismiss
  match choice with
  | none => (.error .noRegistry, d)
  | some choice =>
    let manager := Consensus.Manager.new timeout workers d.processors
    (.ok (), { d with employed := some { manager, choice, source } })

/-- The clock that a manager reads, given the real time. -/
def clockOf (d : Deployment) (real : Int64) : TimeSource → Clock
  | .own => d.clock
  | .wall => Clock.constant (d.wall.millis real)

def keepClock (d : Deployment) (clock : Clock) : TimeSource → Deployment
  | .own => { d with clock }
  | .wall => d

/-- Has the manager validate a transaction; `none` if there is no manager. -/
def validate (s : SignatureScheme) (d : Deployment) (real : Int64) (times : Round.Times)
    (tx : Transaction) :
    Noticed (Option Bool × Deployment) := do
  match d.employed with
  | none => return (none, d)
  | some e =>
    let env := { validators := d.validators e.choice, times }
    let (accepted, manager, clock) ←
      liftM (e.manager.validate s env (d.clockOf real e.source) tx)
    return (some accepted, { d.keepClock clock e.source with employed := some { e with manager } })

def checkTime (d : Deployment) (real timestamp : Int64) :
    Option (Except Failure Bool) × Deployment :=
  match d.employed with
  | none => (none, d)
  | some e =>
    let (fresh, clock) := e.manager.checkTime (d.clockOf real e.source) timestamp
    (some fresh, d.keepClock clock e.source)

def collect (d : Deployment) (times : Round.Times) (tx : Transaction)
    (validators : List (Validator Client)) : Noticed (Option UInt64 × Deployment) := do
  match d.employed with
  | none => return (none, d)
  | some e =>
    let (confirmations, pool) ←
      liftM (Round.collect e.manager.pool e.manager.timeout times tx validators)
    return (some confirmations,
      { d with employed := some { e with manager := { e.manager with pool } } })

/-- Lets slow validators answer, so that no worker is held any more. -/
def releaseSlow (d : Deployment) : Deployment :=
  { d with
    employed := d.employed.map fun e =>
      { e with manager.pool := { e.manager.pool with queue := [], active := [] } } }

/-- Sets both clocks to a time; the manager's own may fail after some readings. -/
def setClock (d : Deployment) (ms : Int64) (failsAfter : Option Nat) (f : Failure) : Deployment :=
  { d with
    clock := match failsAfter with
      | some n => Clock.failingAfter n ms f
      | none => Clock.constant ms
    wall := { mocked := true, mockTime := ms } }

end Deployment

end StakeQuorum
