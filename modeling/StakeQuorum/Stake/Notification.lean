import StakeQuorum.Interleaving

/-! # Telling listeners while they come and go

A notification copies the list of listeners and then calls each of them under the lock of its slot,
unless the slot is marked as removed. A removal takes the listener off the list, waits for the lock
of its slot, and marks the slot. The steps of notifications, removals and additions interleave.
-/

namespace StakeQuorum.Stake.Notification

structure Slot where
  locked : Bool := false
  removed : Bool := false
  deriving DecidableEq, Repr

inductive Telling
  | idle
  /-- Holds the lock of a listener that it has not tested yet. -/
  | holding (id : Nat)
  /-- The listener runs. -/
  | calling (id : Nat)
  /-- Is about to give the lock back. -/
  | leaving (id : Nat)
  deriving DecidableEq, Repr

structure Notify where
  /-- The listeners that are still to be told. -/
  rest : List Nat
  doing : Telling := .idle
  deriving DecidableEq, Repr

inductive Removal
  /-- The listener is off the list. -/
  | erased (id : Nat)
  /-- Holds the lock of the slot. -/
  | holding (id : Nat)
  | returned (id : Nat)
  deriving DecidableEq, Repr

structure Board where
  /-- The ids on the list, ascending. -/
  listed : List Nat := []
  nextId : Nat := 1
  slots : Nat → Slot := fun _ => {}
  notifies : List Notify := []
  removals : List Removal := []
  /-- The calls that have begun: the notification and the listener, the oldest first. -/
  calls : List (Nat × Nat) := []

namespace Board

inductive Move
  | add
  /-- A notification begins by copying the list. -/
  | notify
  | lock (notify : Nat)
  /-- Tests whether the listener was removed, and calls it if it was not. -/
  | test (notify : Nat)
  /-- The call of a listener ends. -/
  | endCall (notify : Nat)
  | unlock (notify : Nat)
  /-- A removal begins by taking the listener off the list. -/
  | remove (id : Nat)
  | lockRemoved (removal : Nat)
  /-- Marks the slot, gives its lock back and returns. -/
  | mark (removal : Nat)
  deriving DecidableEq, Repr

def setSlot (b : Board) (id : Nat) (slot : Slot) : Board :=
  { b with slots := fun i => if i = id then slot else b.slots i }

def setNotify (b : Board) (n : Nat) (x : Notify) : Board :=
  { b with notifies := b.notifies.set n x }

def setRemoval (b : Board) (r : Nat) (x : Removal) : Board :=
  { b with removals := b.removals.set r x }

def stepNotify (b : Board) (n : Nat) (x : Notify) : Move → Option Board
  | .lock _ =>
    match x.doing, x.rest with
    | .idle, id :: rest =>
      if (b.slots id).locked then none
      else some ((b.setSlot id { b.slots id with locked := true }).setNotify n ⟨rest, .holding id⟩)
    | _, _ => none
  | .test _ =>
    match x.doing with
    | .holding id =>
      if (b.slots id).removed then some (b.setNotify n { x with doing := .leaving id })
      else
        let b := { b with calls := b.calls ++ [(n, id)] }
        some (b.setNotify n { x with doing := .calling id })
    | _ => none
  | .endCall _ =>
    match x.doing with
    | .calling id => some (b.setNotify n { x with doing := .leaving id })
    | _ => none
  | .unlock _ =>
    match x.doing with
    | .leaving id =>
      some ((b.setSlot id { b.slots id with locked := false }).setNotify n
        { x with doing := .idle })
    | _ => none
  | _ => none

def stepRemoval (b : Board) (r : Nat) (x : Removal) : Move → Option Board
  | .lockRemoved _ =>
    match x with
    | .erased id =>
      if (b.slots id).locked then none
      else some ((b.setSlot id { b.slots id with locked := true }).setRemoval r (.holding id))
    | _ => none
  | .mark _ =>
    match x with
    | .holding id => some ((b.setSlot id ⟨false, true⟩).setRemoval r (.returned id))
    | _ => none
  | _ => none

def step (b : Board) (m : Move) : Option Board :=
  match m with
  | .add => some { b with listed := b.listed ++ [b.nextId], nextId := b.nextId + 1 }
  | .notify => some { b with notifies := b.notifies ++ [{ rest := b.listed }] }
  | .remove id =>
    if id ∈ b.listed then
      some { b with listed := b.listed.erase id, removals := b.removals ++ [.erased id] }
    else some { b with removals := b.removals ++ [.returned id] }
  | .lock n | .test n | .endCall n | .unlock n => do b.stepNotify n (← b.notifies[n]?) m
  | .lockRemoved r | .mark r => do b.stepRemoval r (← b.removals[r]?) m

/-- A call of a listener is running. -/
def isCalling (b : Board) (id : Nat) : Bool := b.notifies.any fun x => x.doing == .calling id

end Board

end StakeQuorum.Stake.Notification
