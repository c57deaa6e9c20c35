import StakeQuorum.Interleaving
import StakeQuorum.Validator.Set

/-! # Validator sets that follow a changing ledger

Every change of the ledger is followed by a refresh of the set, and so is the making of the set. A
refresh takes the refresh lock, reads the stakes, installs the set that they ask for, and gives the
lock back. Changes and the steps of several refreshes interleave, and refreshes need not come in the
order of the changes.
-/

namespace StakeQuorum.ValidatorSet

abbrev Stakes := List (Bytes × Stake.Record)

inductive Phase
  | due
  | locked
  | read (stakes : Stakes)
  | installed
  | over
  deriving DecidableEq, Repr

structure Following (κ : Type) where
  stakes : Stakes
  members : ValidatorSet κ := {}
  /-- The refresh that holds the lock. -/
  holder : Option Nat := none
  /-- The refreshes in the order in which they became due; the first one makes the set. -/
  refreshes : List Phase := [.due]

namespace Following

variable {κ : Type}

inductive Move
  /-- An operation changes the stakes; a refresh becomes due. -/
  | commit (stakes : Stakes)
  | acquire (refresh : Nat)
  | read (refresh : Nat)
  | install (refresh : Nat)
  | release (refresh : Nat)

/-- The set that stakes ask for; the old one if a client could not be made. -/
def successor (factory : Option (ClientFactory κ)) (minimum : Amount) (old : ValidatorSet κ)
    (stakes : Stakes) : ValidatorSet κ :=
  (refresh factory minimum old stakes).value.toOption.getD old

def advance (s : Following κ) (i : Nat) (phase : Phase) : Following κ :=
  { s with refreshes := s.refreshes.set i phase }

def step (factory : Option (ClientFactory κ)) (minimum : Amount) (s : Following κ) :
    Move → Option (Following κ)
  | .commit stakes => some { s with stakes, refreshes := s.refreshes ++ [.due] }
  | .acquire i =>
    match s.refreshes[i]?, s.holder with
    | some .due, none => some { s.advance i .locked with holder := some i }
    | _, _ => none
  | .read i =>
    match s.refreshes[i]? with
    | some .locked => some (s.advance i (.read s.stakes))
    | _ => none
  | .install i =>
    match s.refreshes[i]? with
    | some (.read stakes) =>
      some { s.advance i .installed with members := successor factory minimum s.members stakes }
    | _ => none
  | .release i =>
    match s.refreshes[i]? with
    | some .installed => some { s.advance i .over with holder := none }
    | _ => none

/-- No operation is in progress. -/
def isQuiet (s : Following κ) : Bool := s.refreshes.all (· == .over)

end Following

def shown {κ : Type} (s : ValidatorSet κ) : List (Bytes × Address.Internal × Amount) :=
  s.values.map fun v => (v.identity, v.internal, v.stake)

end StakeQuorum.ValidatorSet
