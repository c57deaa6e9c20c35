import StakeQuorum.Stake.Program
import StakeQuorum.Validator.Set

/-! # The stake ledger

The ledger runs the stake program on a database and tells its listeners, in the order of their
ids, of every stake that changed. The stakes are committed before anyone is told, so what a
listener raises leaves the operation although its effect stays.
-/

namespace StakeQuorum.Stake

open Store

/-- A validator set that follows the ledger. -/
structure Registry (κ : Type) where
  minimum : Amount
  /-- New members get clients from the factory of the registry. -/
  usesFactory : Bool := true
  members : ValidatorSet κ := {}

/-- How the factory of each registry answers, by the id of the registry. -/
abbrev Factories (κ : Type) := Nat → ValidatorSet.ClientFactory κ

inductive Listener
  /-- Is told, and then raises the failure if there is one. -/
  | observer (raises : Option Failure)
  /-- Rebuilds the registry that was opened under the same id. -/
  | registry
  deriving DecidableEq, Repr

structure Ledger (κ : Type) where
  db : Database := {}
  program : Bytes := defaultProgram
  /-- By ascending id. -/
  listeners : List (Nat × Listener) := []
  /-- The open registries by id. One whose listener was taken away is only rebuilt on request. -/
  registries : List (Nat × Registry κ) := []
  nextId : Nat := 1

/-- How an operation of the ledger ends. -/
inductive Outcome (α : Type)
  | done (a : α)
  | refused (e : StakeError)
  | raised (f : Failure)
  deriving Repr

namespace Ledger

variable {κ : Type}

/-! ### Listeners -/

def addListener (l : Ledger κ) (x : Listener) : Nat × Ledger κ :=
  (l.nextId, { l with listeners := l.listeners ++ [(l.nextId, x)], nextId := l.nextId + 1 })

/-- Takes a listener away; an id that is not in use changes nothing. -/
def removeListener (l : Ledger κ) (id : Nat) : Ledger κ :=
  { l with listeners := l.listeners.filter (·.1 != id) }

/-! ### Registries -/

def registry? (l : Ledger κ) (id : Nat) : Option (Registry κ) := l.registries.lookup id

def setRegistry (l : Ledger κ) (id : Nat) (r : Registry κ) : Ledger κ :=
  { l with registries := l.registries.map fun (i, x) => (i, if i = id then r else x) }

/-- Rebuilds the registry that was opened under an id. A failure leaves it as it was. -/
def refresh (factories : Factories κ) (l : Ledger κ) (id : Nat) :
    Noticed (Option Failure × Ledger κ) := do
  match l.registry? id with
  | none => return (none, l)
  | some r =>
    let all ← liftM (stakes l.db l.program)
    match ← ValidatorSet.refresh (if r.usesFactory then some (factories id) else none) r.minimum
        r.members all with
    | .error f => return (some f, l)
    | .ok members => return (none, l.setRegistry id { r with members })

def closeRegistry (l : Ledger κ) (id : Nat) : Ledger κ :=
  { l.removeListener id with registries := l.registries.filter (·.1 != id) }

/-- Opens a registry and builds its set. If that fails, it is closed again. -/
def openRegistry (factories : Factories κ) (l : Ledger κ) (minimum : Amount)
    (usesFactory : Bool) : Noticed (Except Failure Nat × Ledger κ) := do
  let (id, l) := l.addListener .registry
  let l := { l with registries := l.registries ++ [(id, { minimum, usesFactory })] }
  match ← refresh factories l id with
  | (some f, l) => return (.error f, l.closeRegistry id)
  | (none, l) => return (.ok id, l)

/-! ### Announcements -/

def tell (factories : Factories κ) (l : Ledger κ) (account : Bytes) (record : Record)
    (id : Nat) : Listener → Noticed (Option Failure × Ledger κ)
  | .observer raises => do
    Traced.tell (.told id account record)
    return (raises, l)
  | .registry => refresh factories l id

/-- Tells listeners in turn, up to the first that raises a failure. -/
def tellAll (factories : Factories κ) (account : Bytes) (record : Record) :
    List (Nat × Listener) → Ledger κ → Noticed (Option Failure × Ledger κ)
  | [], l => return (none, l)
  | (id, x) :: rest, l => do
    match ← tell factories l account record id x with
    | (some f, l) => return (some f, l)
    | (none, l) => tellAll factories account record rest l

/-- Ends an operation: after a commit, everyone is told of the stake. -/
def announce (factories : Factories κ) (l : Ledger κ) (account : Bytes) :
    Settlement → Noticed (Outcome Record × Ledger κ)
  | (.error e, db) => return (.refused e, { l with db })
  | (.ok record, db) => do
    match ← tellAll factories account record l.listeners { l with db } with
    | (some f, l) => return (.raised f, l)
    | (none, l) => return (.done record, l)

/-! ### Operations -/

/-- Creates a stake for a staker who is taken to have signed. -/
def createStake (factories : Factories κ) (l : Ledger κ) (staker account : Bytes)
    (amount : Amount) (lockPeriod : Int64) : Noticed (Outcome Record × Ledger κ) := do
  announce factories l account
    (← liftM (create l.db l.program [staker] staker account amount lockPeriod))

/-- Withdraws from a stake for a requester who is taken to have signed. -/
def withdrawStake (factories : Factories κ) (l : Ledger κ) (account requester : Bytes)
    (amount : Amount) : Noticed (Outcome Record × Ledger κ) := do
  announce factories l account
    (← liftM (withdraw l.db l.program [requester] account requester amount))

def processInstruction (factories : Factories κ) (l : Ledger κ) (signers : List Bytes)
    (staker account data : Bytes) : Noticed (Outcome Record × Ledger κ) := do
  announce factories l account (← liftM (process l.db l.program signers staker account data))

end Ledger

end StakeQuorum.Stake
