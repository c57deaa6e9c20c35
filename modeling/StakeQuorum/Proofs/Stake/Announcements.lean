import StakeQuorum.Proofs.Stake.Listeners
import StakeQuorum.Proofs.Stake.Telling
import StakeQuorum.Proofs.Validator.Asking

/-! # Listeners of a ledger on the board

The operations of a ledger that come one after the other are runs of the board on which nothing else
goes on. An addition gives out the next id, a removal takes the listener off the list and returns,
and an announcement tells the observers among those whom the notification calls, in the same order.
-/

namespace StakeQuorum

/-- The listener that was told of a stake. -/
def Notice.listener? : Notice → Option Nat
  | .told id _ _ => some id
  | .log _ | .asked _ => none

namespace Traced

def heard {α : Type} (x : Noticed α) : List Nat := x.trace.filterMap Notice.listener?

variable {α β : Type}

@[simp] theorem heard_pure (a : α) : heard (pure a : Noticed α) = [] := rfl

@[simp] theorem heard_bind (x : Noticed α) (f : α → Noticed β) :
    heard (x >>= f) = heard x ++ heard (f x.value) := List.filterMap_append

@[simp] theorem heard_lift (x : Logged α) : heard (liftM x) = [] := filterMap_lift (fun _ => rfl) x

end Traced

open Traced (heard)

/-! ### Who is told -/

namespace ValidatorSet

variable {κ : Type} (factory : Option (ClientFactory κ)) (minimum : Amount) (old : ValidatorSet κ)

theorem heard_clientFor (o : Bytes) : heard (clientFor factory old o) = [] := by
  unfold clientFor
  split <;> rfl

theorem heard_rebuild (es : List (Bytes × Amount)) (new : ValidatorSet κ) :
    heard (rebuild factory minimum old es new) = [] := by
  induction es generalizing new with
  | nil => rfl
  | cons e es ih =>
    obtain ⟨o, total⟩ := e
    simp only [rebuild]
    split
    · exact ih new
    · cases Address.derive o with
      | error e => rfl
      | ok internal =>
        simp only [Traced.heard_bind, heard_clientFor, List.nil_append]
        cases (clientFor factory old o).value with
        | error f => rfl
        | ok client => exact ih _

theorem heard_refresh (stakes : Stakes) : heard (refresh factory minimum old stakes) = [] := by
  simp only [refresh, Traced.heard_bind, heard_rebuild, List.nil_append]
  split
  · rfl
  · split
    · simp
    · rfl

end ValidatorSet

namespace Stake

open Moves (Reaches)
open Notification (Board)
/-- The listener is told of stakes, instead of reading them for itself. -/
def Listener.isObserver : Listener → Bool
  | .observer _ => true
  | .registry => false

namespace Ledger

variable {κ : Type} {factories : Factories κ} {l : Ledger κ} {b : Board}

theorem refresh_nextId (factories : Factories κ) (l : Ledger κ) (id : Nat) :
    (refresh factories l id).value.2.nextId = l.nextId := by
  cases hr : l.registry? id with
  | none => rw [refresh_of_closed hr]
  | some r =>
    rw [refresh_value hr]
    cases (ValidatorSet.refresh (if r.usesFactory then some (factories id) else none) r.minimum
      r.members (stakes l.db l.program).value).value <;> rfl

theorem heard_refresh (factories : Factories κ) (l : Ledger κ) (id : Nat) :
    heard (refresh factories l id) = [] := by
  unfold refresh
  cases l.registry? id with
  | none => rfl
  | some r =>
    simp only [Traced.heard_bind, Traced.heard_lift, ValidatorSet.heard_refresh, List.nil_append]
    split <;> rfl

theorem heard_tell (factories : Factories κ) (l : Ledger κ) (account : Bytes) (record : Record)
    (id : Nat) (x : Listener) : heard (tell factories l account record id x) =
      ([(id, x)].filter (·.2.isObserver)).map (·.1) := by
  cases x with
  | observer raises => rfl
  | registry => exact heard_refresh factories l id

theorem tell_nextId (factories : Factories κ) (l : Ledger κ) (account : Bytes) (record : Record)
    (id : Nat) (x : Listener) :
    (tell factories l account record id x).value.2.nextId = l.nextId := by
  cases x with
  | observer raises => rfl
  | registry => exact refresh_nextId factories l id

theorem tellAll_nextId (factories : Factories κ) (account : Bytes) (record : Record)
    (xs : List (Nat × Listener)) (l : Ledger κ) :
    (tellAll factories account record xs l).value.2.nextId = l.nextId := by
  induction xs generalizing l with
  | nil => rfl
  | cons e xs ih =>
    obtain ⟨id, x⟩ := e
    have hfirst := tell_nextId factories l account record id x
    simp only [tellAll, Traced.value_bind]
    generalize (tell factories l account record id x).value = t at hfirst ⊢
    obtain ⟨f, l₁⟩ := t
    cases f with
    | some f => exact hfirst
    | none => exact (ih l₁).trans hfirst

theorem heard_tellAll (factories : Factories κ) (account : Bytes) (record : Record)
    (xs : List (Nat × Listener)) (l : Ledger κ)
    (h : (tellAll factories account record xs l).value.1 = none) :
    heard (tellAll factories account record xs l) = (xs.filter (·.2.isObserver)).map (·.1) := by
  induction xs generalizing l with
  | nil => rfl
  | cons e xs ih =>
    obtain ⟨id, x⟩ := e
    have hsplit : (id, x) :: xs = [(id, x)] ++ xs := rfl
    rw [hsplit, List.filter_append, List.map_append, ← heard_tell factories l account record id x]
    simp only [tellAll, Traced.value_bind, List.singleton_append, Traced.heard_bind] at h ⊢
    generalize (tell factories l account record id x).value = t at h ⊢
    obtain ⟨f, l₁⟩ := t
    cases f with
    | some f => cases h
    | none => exact congrArg _ (ih l₁ h)

theorem heard_announce {account : Bytes} {record : Record} {db : Store.Database}
    (h : (announce factories l account (.ok record, db)).value.1 = .done record) :
    heard (announce factories l account (.ok record, db)) =
      (l.listeners.filter (·.2.isObserver)).map (·.1) := by
  have htold := heard_tellAll factories account record l.listeners { l with db }
  simp only [announce, Traced.value_bind, Traced.heard_bind] at h ⊢
  generalize (tellAll factories account record l.listeners { l with db }).value = t at h htold ⊢
  obtain ⟨f, l'⟩ := t
  cases f with
  | some f => cases h
  | none => rw [htold rfl, Traced.heard_pure, List.append_nil]

theorem announce_nextId (factories : Factories κ) (l : Ledger κ) (account : Bytes)
    (record : Record) (db : Store.Database) :
    (announce factories l account (.ok record, db)).value.2.nextId = l.nextId := by
  have hnext := tellAll_nextId factories account record l.listeners { l with db }
  simp only [announce, Traced.value_bind]
  generalize (tellAll factories account record l.listeners { l with db }).value = t at hnext ⊢
  obtain ⟨f, l'⟩ := t
  cases f <;> exact hnext

/-! ### One operation at a time -/

/-- The board has the listeners of a ledger, and nothing is under way on it. -/
structure Shown (l : Ledger κ) (b : Board) : Prop where
  reached : Reaches Board.step {} b
  settled : b.Settled
  listed : b.listed = l.listeners.map (·.1)
  nextId : b.nextId = l.nextId

theorem Shown.addListener (h : Shown l b) (x : Listener) :
    (l.addListener x).1 = b.nextId ∧ ∃ c, b.step .add = some c ∧ Shown (l.addListener x).2 c := by
  refine ⟨h.nextId.symm, _, rfl, h.reached.move .add rfl, h.settled, ?_, ?_⟩
  · simp [Ledger.addListener, h.listed, h.nextId]
  · simp [Ledger.addListener, h.nextId]

/-- Nobody disturbs a removal. -/
theorem Shown.removeListener (h : Shown l b) (id : Nat) : ∃ b' c,
    b.step (.remove id) = some b' ∧ Reaches Board.proceed b' c ∧ Shown (l.removeListener id) c := by
  obtain ⟨b', hm⟩ : ∃ b', b.step (.remove id) = some b' := by
    by_cases hid : id ∈ b.listed <;> simp [Board.step, hid]
  have hreached := h.reached.move _ hm
  have hlisted : b'.listed = b.listed.filter (· != id) ∧ b'.nextId = b.nextId := by
    rcases Board.step_remove hm with ⟨-, rfl⟩ | ⟨hid, rfl⟩
    · have hnodup : b.listed.Nodup :=
        (Board.Sound.of_reaches h.reached).numbered.ascending.imp Nat.ne_of_lt
      exact ⟨hnodup.erase_eq_filter id, rfl⟩
    · refine ⟨(List.filter_eq_self.2 fun i hi => ?_).symm, rfl⟩
      simpa using ne_of_mem_of_not_mem hi hid
  obtain ⟨c, hproceed, hsettled, hlisted', hnext⟩ :=
    (Board.Sound.of_reaches hreached).exists_settled
  refine ⟨b', c, hm, hproceed, hreached.trans (Board.reaches_of_proceed hproceed), hsettled, ?_, ?_⟩
  · rw [hlisted', hlisted.1, h.listed, Ledger.removeListener, List.filter_map]
    rfl
  · rw [hnext, hlisted.2, h.nextId, Ledger.removeListener]

/-- Nobody disturbs a notification. It calls all listeners in their order, and the observers among
them are those whom the announcement tells. -/
theorem Shown.announce (h : Shown l b) {account : Bytes} {record : Record} {db : Store.Database}
    (hdone : (announce factories l account (.ok record, db)).value.1 = .done record) : ∃ b' c,
      b.step .notify = some b' ∧ Reaches Board.proceed b' c ∧
      Shown (Ledger.announce factories l account (.ok record, db)).value.2 c ∧
      c.callsBy b.notifies.length = l.listeners.map (·.1) ∧
      heard (Ledger.announce factories l account (.ok record, db)) =
        (l.listeners.filter (·.2.isObserver)).map (·.1) := by
  have hsound := Board.Sound.of_reaches h.reached
  obtain ⟨b', hm⟩ : ∃ b', b.step .notify = some b' := ⟨_, rfl⟩
  obtain ⟨c, hproceed, hsettled, hlisted, hnext⟩ := (hsound.step hm).exists_settled
  have hreach := Board.reaches_of_proceed hproceed
  obtain ⟨htold, -⟩ := announce_told factories l account record db
  have hlisted' : c.listed = b.listed := by
    rw [hlisted]
    cases hm
    rfl
  have hnext' : c.nextId = b.nextId := by
    rw [hnext]
    cases hm
    rfl
  refine ⟨b', c, hm, hproceed, ⟨(h.reached.move _ hm).trans hreach, hsettled, ?_, ?_⟩, ?_,
    heard_announce hdone⟩
  · rw [hlisted', h.listed, htold.listeners]
  · rw [hnext', h.nextId, announce_nextId]
  · rw [Board.callsBy_of_settled hsound hm hreach hsettled hlisted', h.listed]

end Ledger

end Stake

end StakeQuorum
