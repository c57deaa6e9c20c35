import StakeQuorum.Proofs.Runs
import StakeQuorum.Proofs.Stake.Registries
import StakeQuorum.Proofs.Validator.Asking

/-! # Clients over the rebuilds of a registry

A registry is rebuilt again and again while its ledger changes. A rebuild that raises a failure
leaves the installed set as it was, and every other one asks for the clients of those who enter.
So a member has had its client in every set since it last entered, and a registry whose first set
could not be built is not left behind.
-/

namespace StakeQuorum.Stake.Ledger

open Store
open Traced (asked)
open ValidatorSet (ClientFactory Renewed Supplies)

variable {κ : Type} {factories : Factories κ} {l : Ledger κ} {id : Nat} {r : Registry κ}
  {uses : Bool}

/-! ### Single rebuilds -/

def asking (uses : Bool) (factory : ClientFactory κ) : Option (ClientFactory κ) :=
  if uses then some factory else none

def members (l : Ledger κ) (id : Nat) : ValidatorSet κ := ( l.registry? id).elim {} (·.members)

theorem members_of_open (hr : l.registry? id = some r) : l.members id = r.members := by
  rw [members, hr, Option.elim_some]

theorem asked_refresh (factories : Factories κ) (hr : l.registry? id = some r) :
    asked (refresh factories l id) =
      asked (ValidatorSet.refresh (asking r.usesFactory (factories id)) r.minimum r.members
        (stakes l.db l.program).value) := by
  have hlift : (liftM (stakes l.db l.program) : Noticed _).value =
      (stakes l.db l.program).value := rfl
  simp only [refresh, hr, Traced.asked_bind, Traced.asked_lift, hlift, List.nil_append, asking]
  cases (ValidatorSet.refresh (if r.usesFactory then some (factories id) else none) r.minimum
    r.members (stakes l.db l.program).value).value <;> exact List.append_nil _

theorem refresh_cases (factories : Factories κ) (hr : l.registry? id = some r) :
    (∃ f, (refresh factories l id).value = (some f, l)) ∨
      ∃ l' set, (refresh factories l id).value = (none, l') ∧
        l'.registry? id = some { r with members := set } ∧
        Renewed (asking r.usesFactory (factories id)) r.members set
          (asked (refresh factories l id)) := by
  rw [refresh_value hr, asked_refresh factories hr, asking]
  cases h : (ValidatorSet.refresh (if r.usesFactory then some (factories id) else none) r.minimum
      r.members (stakes l.db l.program).value).value with
  | error f => exact .inl ⟨f, rfl⟩
  | ok set =>
    exact .inr ⟨_, set, rfl, registry?_setRegistry_self hr _, ValidatorSet.renewed_of_refresh h⟩

/-- A registry is open under an id and asks a factory, or does not. -/
def Asks (l : Ledger κ) (id : Nat) (uses : Bool) : Prop :=
  ∃ r, l.registry? id = some r ∧ r.usesFactory = uses

/-! ### Histories -/

/-- A rebuild of the registry under an id, after the ledger has changed in any way that leaves this
registry alone. As a factory is asked at most once for an owner, what it answers during one
rebuild is a function of the owner. -/
structure Turn (κ : Type) (id : Nat) where
  change : Ledger κ → Ledger κ
  keeps : ∀ l : Ledger κ, registry? (change l) id = registry? l id
  factories : Factories κ

namespace Turn

/-- The rebuild, with the failure that it raises. -/
def rebuild (t : Turn κ id) (l : Ledger κ) : Noticed (Option Failure × Ledger κ) :=
  refresh t.factories (t.change l) id

def next (t : Turn κ id) (l : Ledger κ) : Ledger κ := (t.rebuild l).value.2

/-- What a turn makes of the installed set and the clients in it. -/
structure Continues (uses : Bool) (t : Turn κ id) (l : Ledger κ) : Prop where
  ascending : (asked (t.rebuild l)).Pairwise (· < ·)
  raised : ∀ f, (t.rebuild l).value.1 = some f → registry? (t.next l) id = registry? l id
  returned : (t.rebuild l).value.1 = none →
    Renewed (asking uses (t.factories id)) (l.members id) ((t.next l).members id)
      (asked (t.rebuild l))

variable {t : Turn κ id}

theorem continues (h : l.Asks id uses) (t : Turn κ id) :
    t.Continues uses l ∧ (t.next l).Asks id uses := by
  obtain ⟨r, hr, rfl⟩ := h
  have hr' : registry? (t.change l) id = some r := (t.keeps l).trans hr
  have hascending : (asked (t.rebuild l)).Pairwise (· < ·) := by
    rw [rebuild, asked_refresh t.factories hr']
    exact ValidatorSet.ascending_asked ..
  rcases refresh_cases t.factories hr' with ⟨f, hvalue⟩ | ⟨l', set, hvalue, hset, hrenewed⟩
  · have hnext : t.next l = t.change l := congrArg Prod.snd hvalue
    have hraised : (t.rebuild l).value.1 = some f := congrArg Prod.fst hvalue
    refine ⟨⟨hascending, ?_, ?_⟩, r, hnext ▸ hr', rfl⟩
    · intro f' _
      rw [hnext, hr', hr]
    · intro hnone
      cases hraised.symm.trans hnone
  · obtain rfl : t.next l = l' := congrArg Prod.snd hvalue
    have hreturned : (t.rebuild l).value.1 = none := congrArg Prod.fst hvalue
    refine ⟨⟨hascending, ?_, ?_⟩, _, hset, rfl⟩
    · intro f hraised
      cases hreturned.symm.trans hraised
    · intro _
      rw [members_of_open hset, members_of_open hr]
      exact hrenewed

end Turn

section Histories

variable {turns : List (Turn κ id)} {n : ℕ} {o : Bytes} {v : Validator κ}

def follow (l : Ledger κ) (turns : List (Turn κ id)) : Ledger κ :=
  turns.foldl (fun l t => t.next l) l

def installed (l : Ledger κ) (turns : List (Turn κ id)) (n : ℕ) : ValidatorSet κ :=
  (follow l (turns.take n)).members id

/-- An owner enters the set at the turn after the first `n`, and gets a client there. -/
structure Entered (uses : Bool) (l : Ledger κ) (turns : List (Turn κ id)) (n : ℕ) (o : Bytes)
    (client : Option κ) : Prop where
  outside : (installed l turns n).get? o = none
  supplied : ∃ t, turns[n]? = some t ∧ (t.rebuild (follow l (turns.take n))).value.1 = none ∧
    Supplies (asking uses (t.factories id)) o client

/-- An owner has a client in every set from the one after `m` turns to the one after `n` turns. -/
def HasClient (l : Ledger κ) (turns : List (Turn κ id)) (m n : ℕ) (o : Bytes)
    (client : Option κ) : Prop :=
  ∀ k, m ≤ k → k ≤ n → ∃ v, (installed l turns k).get? o = some v ∧ v.client = client

theorem hasClient_self (hv : (installed l turns n).get? o = some v) :
    HasClient l turns n n o v.client := by
  intro k hnk hkn
  obtain rfl := Nat.le_antisymm hkn hnk
  exact ⟨v, hv, rfl⟩

theorem HasClient.succ {m : ℕ} (h : HasClient l turns m n o v.client)
    (hv : (installed l turns (n + 1)).get? o = some v) :
    HasClient l turns m (n + 1) o v.client := by
  intro k hmk hk
  rcases Nat.le_succ_iff.1 hk with hk | rfl
  · exact h k hmk hk
  · exact ⟨v, hv, rfl⟩

theorem asks_follow (h : l.Asks id uses) (turns : List (Turn κ id)) :
    (follow l turns).Asks id uses := by
  induction turns generalizing l with
  | nil => exact h
  | cons t turns ih => exact ih (t.continues h).2

theorem installed_succ (l : Ledger κ) {t : Turn κ id} (ht : turns[n]? = some t) :
    installed l turns (n + 1) = (t.next (follow l (turns.take n))).members id := by
  rw [installed, follow, foldl_take_succ ht]
  rfl

theorem installed_succ_of_end (l : Ledger κ) (ht : turns[n]? = none) :
    installed l turns (n + 1) = installed l turns n := by
  rw [installed, List.take_add_one, ht, Option.toList_none, List.append_nil, installed]

/-- A member after one more turn was a member before it with the same client, or enters there. -/
theorem member_or_entered (h : l.Asks id uses)
    (hv : (installed l turns (n + 1)).get? o = some v) :
    (∃ v₀, (installed l turns n).get? o = some v₀ ∧ v₀.client = v.client) ∨
      Entered uses l turns n o v.client := by
  cases ht : turns[n]? with
  | none => exact .inl ⟨v, installed_succ_of_end l ht ▸ hv, rfl⟩
  | some t =>
    rw [installed_succ l ht] at hv
    obtain ⟨-, hraised, hreturned⟩ := (t.continues (asks_follow h (turns.take n))).1
    cases hf : (t.rebuild (follow l (turns.take n))).value.1 with
    | some f =>
      rw [members, hraised f hf] at hv
      exact .inl ⟨v, hv, rfl⟩
    | none =>
      have hrenewed := hreturned hf
      cases hold : (installed l turns n).get? o with
      | some v₀ => exact .inl ⟨v₀, rfl, (hrenewed.stays o v₀ v hold hv).symm⟩
      | none => exact .inr ⟨hold, t, ht, hf, hrenewed.enters o v hold hv⟩

/-- A member has had its client in every set since it entered, or from the start on. -/
theorem client_since (h : l.Asks id uses) (hv : (installed l turns n).get? o = some v) :
    ∃ m ≤ n, HasClient l turns m n o v.client ∧
      (m = 0 ∨ ∃ j, m = j + 1 ∧ Entered uses l turns j o v.client) := by
  induction n generalizing v with
  | zero => exact ⟨0, le_rfl, hasClient_self hv, .inl rfl⟩
  | succ n ih =>
    rcases member_or_entered h hv with ⟨v₀, hv₀, hsame⟩ | hentered
    · obtain ⟨m, hm, hkept, horigin⟩ := ih hv₀
      rw [hsame] at hkept horigin
      exact ⟨m, Nat.le_succ_of_le hm, hkept.succ hv, horigin⟩
    · exact ⟨n + 1, le_rfl, hasClient_self hv, .inr ⟨n, rfl, hentered⟩⟩

end Histories

/-! ### Opening -/

theorem asked_openRegistry (factories : Factories κ) (l : Ledger κ) (minimum : Amount)
    (uses : Bool) : asked (openRegistry factories l minimum uses) =
      asked (refresh factories (l.enrolled minimum uses) l.nextId) := by
  simp only [openRegistry, addListener, Traced.asked_bind]
  unfold enrolled
  split <;> exact List.append_nil _

theorem closed_of_openRegistry_error {minimum : Amount} {f : Failure} {after : Ledger κ}
    (hid : l.registry? l.nextId = none)
    (h : (openRegistry factories l minimum uses).value = (.error f, after)) :
    (∀ x, (l.nextId, x) ∉ after.listeners) ∧ after.registry? l.nextId = none ∧
      ((∀ e ∈ l.listeners, e.1 < l.nextId) → after.listeners = l.listeners) := by
  rw [openRegistry_value] at h
  rcases refresh_cases factories (registry?_enrolled hid minimum uses) with
    ⟨f, hvalue⟩ | ⟨l', set, hvalue, -⟩
  · rw [hvalue] at h
    obtain rfl : (l.enrolled minimum uses).closeRegistry l.nextId = after := congrArg Prod.snd h
    refine ⟨?_, ?_, ?_⟩
    · simp [closeRegistry, removeListener]
    · refine List.lookup_eq_none_iff.2 ?_
      intro e he
      have hother : e.1 ≠ l.nextId := bne_iff_ne.1 (List.mem_filter.1 he).2
      simpa using hother.symm
    · intro hnumbered
      have hlast : [(l.nextId, Listener.registry)].filter (·.1 != l.nextId) = [] := by simp
      rw [closeRegistry, removeListener, enrolled, List.filter_append, hlast, List.append_nil,
        List.filter_eq_self]
      intro e he
      simpa using (hnumbered e he).ne
  · rw [hvalue] at h
    cases congrArg Prod.fst h

theorem renewed_of_openRegistry {minimum : Amount} {start : Ledger κ}
    (hid : l.registry? l.nextId = none)
    (h : (openRegistry factories l minimum uses).value = (.ok id, start)) :
    start.Asks id uses ∧ Renewed (asking uses (factories id)) {} (start.members id)
      (asked (openRegistry factories l minimum uses)) := by
  rw [openRegistry_value] at h
  rw [asked_openRegistry]
  rcases refresh_cases factories (registry?_enrolled hid minimum uses) with
    ⟨f, hvalue⟩ | ⟨l', set, hvalue, hset, hrenewed⟩
  · rw [hvalue] at h
    cases congrArg Prod.fst h
  · rw [hvalue] at h
    obtain ⟨hnext, rfl⟩ := Prod.mk.inj h
    obtain rfl : l.nextId = id := Except.ok.inj hnext
    rw [members_of_open hset]
    exact ⟨⟨_, hset, rfl⟩, hrenewed⟩

/-- Whatever the factory answers, and however the ledger changes between the rebuilds of a registry:
a rebuild that raises a failure leaves the installed set as it was, every other one asks the factory
for those who enter, and a member keeps the client it got on entering for as long as it stays. When
the first set cannot be built, no listener of the registry remains. -/
theorem clients_continue (hid : l.registry? l.nextId = none) (factories : Factories κ)
    (minimum : Amount) (uses : Bool) :
    let opening := openRegistry factories l minimum uses
    (∀ f after, opening.value = (.error f, after) →
      (∀ x, (l.nextId, x) ∉ after.listeners) ∧ after.registry? l.nextId = none ∧
        ((∀ e ∈ l.listeners, e.1 < l.nextId) → after.listeners = l.listeners)) ∧
    ∀ id start, opening.value = (.ok id, start) →
      Renewed (asking uses (factories id)) {} (start.members id) (asked opening) ∧
      ∀ turns : List (Turn κ id),
        (∀ n (t : Turn κ id), turns[n]? = some t →
          t.Continues uses (follow start (turns.take n))) ∧
        ∀ n o v, (installed start turns n).get? o = some v → ∃ m ≤ n,
          HasClient start turns m n o v.client ∧
            (m = 0 ∧ Supplies (asking uses (factories id)) o v.client ∨
              ∃ j, m = j + 1 ∧ Entered uses start turns j o v.client) := by
  intro opening
  refine ⟨fun f after h => closed_of_openRegistry_error hid h, ?_⟩
  intro id start h
  obtain ⟨hasks, hrenewed⟩ := renewed_of_openRegistry hid h
  refine ⟨hrenewed, fun turns => ⟨?_, ?_⟩⟩
  · intro n t _
    exact (t.continues (asks_follow hasks _)).1
  · intro n o v hv
    obtain ⟨m, hm, hkept, rfl | horigin⟩ := client_since hasks hv
    · obtain ⟨v', hv', hsame⟩ := hkept 0 le_rfl hm
      refine ⟨0, hm, hkept, .inl ⟨rfl, ?_⟩⟩
      rw [← hsame]
      exact hrenewed.enters o v' rfl hv'
    · exact ⟨m, hm, hkept, .inr horigin⟩

def joiner : Bytes := "7xKXtg2CW87d97TXJSDpbD5jBkheTqA83TZRuJosgAsU"

def founder : Bytes := "DYw8jCTfwHNRJhhmFcbXvVDTqWMEVFBX6ZKUmG5CNSKK"

def staking (amounts : List (Bytes × Amount)) : Database :=
  (run (fun _ _ => .ok none) ({} : Ledger Nat) (amounts.flatMap fun e =>
    [.deposit e.1 100000000000, .serve (.create e.1 (0 :: e.1) e.2 0)])).db

def turn (db : Database) (answer : Except Failure (Option Nat)) : Turn Nat 1 where
  change l := { l with db }
  keeps _ := rfl
  factories _ _ := answer

def comeAndGo : List (Turn Nat 1) :=
  let both := staking [(joiner, 10000000000), (founder, 12000000000)]
  [turn both (.error (.raised "no transport")), turn both (.ok none), turn both (.ok (some 9)),
    turn (staking [(joiner, 10000000000)]) (.ok (some 9)), turn both (.ok (some 8))]

theorem clients_continue_comeAndGo :
    let l : Ledger Nat := { db := staking [(founder, 12000000000)] }
    let broken : Factories Nat := fun _ _ => .error (.raised "no transport")
    let opening := openRegistry (fun _ _ => .ok (some 7)) l Validator.defaultMinimum true
    let start := opening.value.2
    let clients n := (installed start comeAndGo n).entries.map fun e => (e.1, e.2.client)
    l.registry? l.nextId = none ∧
    (∃ f after, (openRegistry broken l Validator.defaultMinimum true).value = (.error f, after) ∧
      after.listeners = []) ∧
    opening.value.1 = .ok 1 ∧
    (List.range 6).map clients =
      [[(founder, some 7)], [(founder, some 7)], [(joiner, none), (founder, some 7)],
        [(joiner, none), (founder, some 7)], [(joiner, none)],
        [(joiner, none), (founder, some 8)]] ∧
    (∀ n (t : Turn Nat 1), comeAndGo[n]? = some t →
      t.Continues true (follow start (comeAndGo.take n))) ∧
    ∃ v, (installed start comeAndGo 5).get? joiner = some v ∧
      ∃ m ≤ 5, HasClient start comeAndGo m 5 joiner v.client := by
  intro l broken opening start clients
  have hid : l.registry? l.nextId = none := rfl
  have hbroken : (openRegistry broken l Validator.defaultMinimum true).value.1 =
      .error (.raised "no transport") := by decide +kernel
  have hclosed := (clients_continue hid broken Validator.defaultMinimum true).1 _ _
    (Prod.ext hbroken rfl)
  have hopened : opening.value.1 = .ok 1 := by decide +kernel
  obtain ⟨-, hall⟩ := (clients_continue hid (fun _ _ => .ok (some 7)) Validator.defaultMinimum
    true).2 1 start (Prod.ext hopened rfl)
  obtain ⟨hturns, hmembers⟩ := hall comeAndGo
  obtain ⟨v, hv⟩ : ∃ v, (installed start comeAndGo 5).get? joiner = some v :=
    Option.isSome_iff_exists.1 (by decide +kernel)
  obtain ⟨m, hm, hkept, -⟩ := hmembers 5 joiner v hv
  exact ⟨hid, ⟨_, _, Prod.ext hbroken rfl, hclosed.2.2 (by simp [l])⟩, hopened,
    by decide +kernel, hturns, v, hv, m, hm, hkept⟩

end StakeQuorum.Stake.Ledger
