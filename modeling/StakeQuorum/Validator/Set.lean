import StakeQuorum.Log.Note
import StakeQuorum.Stake.Record
import StakeQuorum.Store.ByteMap

/-! # Validator sets

A validator is an identity with a stake and, possibly, a client that can be asked for a
confirmation. A set lists its validators in the order of their identities. It is kept by hand, or
rebuilt from the stakes: an owner is a member when the active stakes of the owner reach a minimum.
-/

namespace StakeQuorum

/-- What code outside the system may raise when it is called: a listener, a client, a clock. -/
inductive Failure
  | raised (message : Bytes)
  | badAddress (e : Address.AddressError)
  deriving DecidableEq, Repr

def Failure.message : Failure → Bytes
  | raised message => message
  | badAddress e => e.message

/-- What is seen from outside while the system works. -/
inductive Notice
  | log (note : Log.Note)
  /-- A listener was told of a stake. -/
  | told (listener : Nat) (account : Bytes) (record : Stake.Record)
  /-- A client was asked for. -/
  | asked (identity : Bytes)
  deriving DecidableEq, Repr

abbrev Noticed := Traced Notice

instance : MonadLift Logged Noticed := ⟨Traced.rename .log⟩

structure Validator (κ : Type) where
  identity : Bytes
  internal : Address.Internal
  stake : Amount
  client : Option κ

namespace Validator

variable {κ : Type}

def describe (identity internal : Bytes) (stake : Amount) (hasClient : Bool) : Bytes :=
  "Validator(" ++ identity ++ ", " ++ internal ++ ", stake=" ++ Bytes.ofWord stake ++
    (if hasClient then "" else ", no client") ++ ")"

def text (v : Validator κ) : Bytes :=
  describe v.identity v.internal.text v.stake v.client.isSome

/-- The smallest total stake of a member, unless another is chosen. -/
def defaultMinimum : Amount := Stake.minimumAmount

end Validator

abbrev ValidatorSet (κ : Type) := ByteMap (Validator κ)

namespace ValidatorSet

variable {κ : Type}

/-- Adds a validator; `none` if the identity is no external address or already a member. -/
def add? (s : ValidatorSet κ) (identity : Bytes) (stake : Amount) (client : Option κ) :
    Option (ValidatorSet κ) :=
  match Address.derive identity with
  | .error _ => none
  | .ok internal =>
    if s.contains identity then none
    else some (s.insert identity { identity, internal, stake, client })

/-- The total of each owner's active stakes, at most the greatest amount. -/
def ownerTotals (stakes : List (Bytes × Stake.Record)) : ByteMap Amount :=
  stakes.foldl
    (fun totals s =>
      if s.2.active then
        totals.insert s.2.owner (Amount.saturatingAdd ((totals.get? s.2.owner).getD 0) s.2.amount)
      else totals)
    {}

/-- Makes the client for an identity, or raises a failure. -/
abbrev ClientFactory (κ : Type) := Bytes → Except Failure (Option κ)

/-- The client of a member: the one it had before, or else a new one. -/
def clientFor (factory : Option (ClientFactory κ)) (old : ValidatorSet κ) (identity : Bytes) :
    Noticed (Except Failure (Option κ)) := do
  match old.get? identity, factory with
  | some v, _ => return .ok v.client
  | none, none => return .ok none
  | none, some make =>
    Traced.tell (.asked identity)
    return make identity

/-- Adds the owners whose totals reach the minimum to a new set. -/
def rebuild (factory : Option (ClientFactory κ)) (minimum : Amount) (old : ValidatorSet κ) :
    List (Bytes × Amount) → ValidatorSet κ → Noticed (Except Failure (ValidatorSet κ))
  | [], new => return .ok new
  | (identity, stake) :: rest, new => do
    if stake < minimum then rebuild factory minimum old rest new
    else match Address.derive identity with
      | .error e => return .error (.badAddress e)
      | .ok internal =>
        match ← clientFor factory old identity with
        | .error f => return .error f
        | .ok client =>
          rebuild factory minimum old rest
            (new.insert identity { identity, internal, stake, client })

/-- The set that the stakes ask for. Members that stay keep their clients. -/
def refresh (factory : Option (ClientFactory κ)) (minimum : Amount) (old : ValidatorSet κ)
    (stakes : List (Bytes × Stake.Record)) : Noticed (Except Failure (ValidatorSet κ)) := do
  match ← rebuild factory minimum old (ownerTotals stakes).entries {} with
  | .error f => return .error f
  | .ok new =>
    if new.size ≠ old.size then
      liftM (Log.note .info Log.Category.consensus
        ("Validator set now has " ++ Bytes.decimal new.size ++ " members"))
    return .ok new

end ValidatorSet

end StakeQuorum
