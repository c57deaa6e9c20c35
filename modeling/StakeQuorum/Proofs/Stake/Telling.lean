import StakeQuorum.Proofs.Stake.Listing
import StakeQuorum.Proofs.Validator.Members

/-! # Telling the listeners of a ledger

Whoever is told of a stake, the database, the program and the listeners stay as they are. Every
registry among the listeners mirrors the stakes afterwards unless one of them raises a failure.
Whether one does can be seen before anyone is told, and only observers do when clients can be made
for everybody.
-/

namespace StakeQuorum.Stake

open Store
open ValidatorSet (ClientFactory Mirrors Qualifies Stakes Steady)

variable {κ : Type} {db : Database} {program : Bytes}

theorem isExternal_of_mem_stakes {s : Bytes × Record} (h : s ∈ (stakes db program).value) :
    Address.isExternal s.2.owner = true := by
  obtain ⟨a, hs⟩ := staked?_eq_some_iff.1 (mem_stakes_iff.1 h)
  exact Record.isExternal_of_decode? hs.decoded

/-- The factory fails for an owner who becomes a member. -/
def Registry.Fails (factory : ClientFactory κ) (stakes : Stakes) (r : Registry κ) : Prop :=
  ∃ o, Qualifies r.minimum stakes o ∧
    ValidatorSet.Fails (if r.usesFactory then some factory else none) r.members o

theorem Registry.not_fails {factory : ClientFactory κ} (hf : Steady factory) (stakes : Stakes)
    (r : Registry κ) : ¬ r.Fails factory stakes := by
  rintro ⟨o, -, hfails⟩
  refine ValidatorSet.Steady.not_fails ?_ hfails
  intro make hmake
  split at hmake
  · exact Option.some.inj hmake ▸ hf
  · simp at hmake

/-- Every registry can make clients for all owners. -/
def Factories.Steady (factories : Factories κ) : Prop := ∀ id, ValidatorSet.Steady (factories id)

namespace Ledger

variable {factories : Factories κ} {l l' l'' : Ledger κ} {id id' : Nat} {minimum : Amount}

/-- No listener raises a failure of its own. -/
def Quiet (l : Ledger κ) : Prop := ∀ e ∈ l.listeners, ∀ f, e.2 ≠ .observer (some f)

def Opened (l : Ledger κ) (id : Nat) (minimum : Amount) : Prop :=
  ∃ r, l.registry? id = some r ∧ r.minimum = minimum

/-- A registry is open under an id and mirrors the stakes of the ledger. -/
def Follows (l : Ledger κ) (id : Nat) (minimum : Amount) : Prop :=
  ∃ r, l.registry? id = some r ∧ r.minimum = minimum ∧
    Mirrors minimum (stakes l.db l.program).value r.members

/-- What telling listeners leaves alone. -/
structure Told (l l' : Ledger κ) : Prop where
  db : l'.db = l.db
  program : l'.program = l.program
  listeners : l'.listeners = l.listeners
  opened : ∀ id minimum, l.Opened id minimum → l'.Opened id minimum
  follows : ∀ id minimum, l.Follows id minimum → l'.Follows id minimum

theorem Told.refl (l : Ledger κ) : Told l l := ⟨rfl, rfl, rfl, fun _ _ h => h, fun _ _ h => h⟩

theorem Told.trans (h : Told l l') (h' : Told l' l'') : Told l l'' where
  db := h'.db.trans h.db
  program := h'.program.trans h.program
  listeners := h'.listeners.trans h.listeners
  opened id minimum ho := h'.opened id minimum (h.opened id minimum ho)
  follows id minimum hf := h'.follows id minimum (h.follows id minimum hf)

/-! ### Rebuilding -/

theorem registry?_setRegistry (l : Ledger κ) (id id' : Nat) (r : Registry κ) :
    registry? (l.setRegistry id r) id' =
      Option.map (fun x => if id' = id then r else x) ( registry? l id') := by
  simp only [setRegistry, registry?]
  induction l.registries with
  | nil => rfl
  | cons e es ih =>
    obtain ⟨i, x⟩ := e
    by_cases hi : id' = i
    · subst hi
      simp
    · have hb : (id' == i) = false := beq_false_of_ne hi
      simp only [List.map_cons, List.lookup_cons, hb]
      exact ih

theorem registry?_setRegistry_self {r : Registry κ} (hr : l.registry? id = some r)
    (r' : Registry κ) : registry? (l.setRegistry id r') id = some r' := by
  rw [registry?_setRegistry, hr, Option.map_some, if_pos rfl]

theorem told_setRegistry {r : Registry κ} (hr : l.registry? id = some r) (r' : Registry κ)
    (hmin : r'.minimum = r.minimum)
    (hm : Mirrors r'.minimum (stakes l.db l.program).value r'.members) :
    Told l (l.setRegistry id r') ∧ (l.setRegistry id r').Follows id r.minimum := by
  have hset := registry?_setRegistry_self hr r'
  have hother : ∀ {i x}, i ≠ id → l.registry? i = some x →
      registry? (l.setRegistry id r') i = some x := by
    intro i x hne hx
    rw [registry?_setRegistry, hx]
    simp [hne]
  refine ⟨⟨rfl, rfl, rfl, ?_, ?_⟩, r', hset, hmin, hmin ▸ hm⟩
  · rintro i minimum ⟨x, hx, rfl⟩
    by_cases hi : i = id
    · subst hi
      obtain rfl := Option.some.inj (hx.symm.trans hr)
      exact ⟨r', hset, hmin⟩
    · exact ⟨x, hother hi hx, rfl⟩
  · rintro i minimum ⟨x, hx, rfl, hmx⟩
    by_cases hi : i = id
    · subst hi
      obtain rfl := Option.some.inj (hx.symm.trans hr)
      exact ⟨r', hset, hmin, hmin ▸ hm⟩
    · exact ⟨x, hother hi hx, rfl, hmx⟩

theorem refresh_value {r : Registry κ} (hr : l.registry? id = some r) :
    (refresh factories l id).value =
      match (ValidatorSet.refresh (if r.usesFactory then some (factories id) else none) r.minimum
        r.members (stakes l.db l.program).value).value with
      | .error f => (some f, l)
      | .ok members => (none, l.setRegistry id { r with members }) := by
  have hlift : (liftM (stakes l.db l.program) : Noticed _).value =
      (stakes l.db l.program).value := rfl
  simp only [refresh, hr, Traced.value_bind, hlift]
  cases (ValidatorSet.refresh (if r.usesFactory then some (factories id) else none) r.minimum
    r.members (stakes l.db l.program).value).value <;> rfl

theorem refresh_of_closed (hr : l.registry? id = none) :
    (refresh factories l id).value = (none, l) := by
  rw [refresh, hr]
  rfl

theorem refresh_told (factories : Factories κ) (l : Ledger κ) (id : Nat) :
    Told l (refresh factories l id).value.2 ∧ ((refresh factories l id).value.1 = none →
      ∀ minimum, l.Opened id minimum → (refresh factories l id).value.2.Follows id minimum) := by
  cases hr : l.registry? id with
  | none =>
    rw [refresh_of_closed hr]
    refine ⟨.refl l, fun _ => ?_⟩
    rintro minimum ⟨r, hr', -⟩
    exact absurd (hr'.symm.trans hr) (by simp)
  | some r =>
    rw [refresh_value hr]
    cases hm : (ValidatorSet.refresh (if r.usesFactory then some (factories id) else none) r.minimum
        r.members (stakes l.db l.program).value).value with
    | error f => exact ⟨.refl l, by simp⟩
    | ok members =>
      obtain ⟨htold, hfollows⟩ := told_setRegistry hr { r with members } rfl
        (ValidatorSet.mirrors_of_refresh hm)
      refine ⟨htold, fun _ => ?_⟩
      rintro minimum ⟨r', hr', rfl⟩
      obtain rfl := Option.some.inj (hr'.symm.trans hr)
      exact hfollows

/-! ### Failures -/

/-- A listener raises a failure when it is told. -/
def Fails (factories : Factories κ) (l : Ledger κ) : Nat × Listener → Prop
  | (_, .observer raises) => raises ≠ none
  | (id, .registry) =>
    ∃ r, l.registry? id = some r ∧ r.Fails (factories id) (stakes l.db l.program).value

theorem not_fails_of_quiet (hf : factories.Steady) (hq : l.Quiet) {e : Nat × Listener}
    (he : e ∈ l.listeners) : ¬ Fails factories l e := by
  obtain ⟨id, x⟩ := e
  cases x with
  | observer raises =>
    intro hraises
    obtain ⟨f, rfl⟩ := Option.ne_none_iff_exists'.1 hraises
    exact hq _ he f rfl
  | registry =>
    rintro ⟨r, -, hfails⟩
    exact r.not_fails (hf id) _ hfails

theorem refresh_ne_none_iff (factories : Factories κ) (l : Ledger κ) (id : Nat) :
    (refresh factories l id).value.1 ≠ none ↔ Fails factories l (id, .registry) := by
  cases hr : l.registry? id with
  | none => simp [refresh_of_closed hr, Fails, hr]
  | some r =>
    simp only [Fails, hr, Option.some.injEq, exists_eq_left', Registry.Fails]
    rw [refresh_value hr, ← ValidatorSet.refresh_error_iff fun s hs => isExternal_of_mem_stakes hs]
    cases (ValidatorSet.refresh (if r.usesFactory then some (factories id) else none) r.minimum
      r.members (stakes l.db l.program).value).value <;> simp

theorem refresh_of_steady (hf : factories.Steady) (l : Ledger κ) (id : Nat) :
    (refresh factories l id).value.1 = none := by
  by_contra hraised
  obtain ⟨r, -, hfails⟩ := (refresh_ne_none_iff factories l id).1 hraised
  exact r.not_fails (hf id) _ hfails

/-- A rebuild that goes through makes no difference to who fails. -/
theorem fails_refresh_iff (h : ¬ Fails factories l (id, .registry)) (e : Nat × Listener) :
    Fails factories (refresh factories l id).value.2 e ↔ Fails factories l e := by
  cases hr : l.registry? id with
  | none => rw [refresh_of_closed hr]
  | some r =>
    have hnone := mt (refresh_ne_none_iff factories l id).1 h
    rw [refresh_value hr] at hnone ⊢
    cases hm : (ValidatorSet.refresh (if r.usesFactory then some (factories id) else none) r.minimum
        r.members (stakes l.db l.program).value).value with
    | error f => simp [hm] at hnone
    | ok members =>
      obtain ⟨id', x⟩ := e
      cases x with
      | observer raises => exact Iff.rfl
      | registry =>
        by_cases hi : id' = id
        · subst hi
          refine iff_of_false ?_ h
          rintro ⟨r', hr', o, ho, hnot, -⟩
          rw [registry?_setRegistry, hr] at hr'
          obtain rfl : { r with members } = r' := by simpa using hr'
          exact ValidatorSet.get?_ne_none_of_refresh hm ho hnot
        · have hsame : registry? (l.setRegistry id { r with members }) id' = l.registry? id' := by
            simp [registry?_setRegistry, hi]
          exact exists_congr fun x => and_congr_left' (by rw [hsame])

/-! ### Telling -/

theorem tell_told (factories : Factories κ) (l : Ledger κ) (account : Bytes) (record : Record)
    (id : Nat) (x : Listener) : Told l (tell factories l account record id x).value.2 ∧
      ((tell factories l account record id x).value.1 = none → x = .registry →
        ∀ minimum, l.Opened id minimum →
          (tell factories l account record id x).value.2.Follows id minimum) := by
  cases x with
  | observer raises => exact ⟨.refl l, by simp⟩
  | registry =>
    obtain ⟨htold, hfollows⟩ := refresh_told factories l id
    exact ⟨htold, fun hnone _ => hfollows hnone⟩

theorem tellAll_told (factories : Factories κ) (account : Bytes) (record : Record)
    (xs : List (Nat × Listener)) (l : Ledger κ) :
    Told l (tellAll factories account record xs l).value.2 ∧
      ((tellAll factories account record xs l).value.1 = none →
        ∀ id minimum, (id, .registry) ∈ xs → l.Opened id minimum →
          (tellAll factories account record xs l).value.2.Follows id minimum) := by
  induction xs generalizing l with
  | nil => exact ⟨.refl l, by simp⟩
  | cons e xs ih =>
    obtain ⟨i, x⟩ := e
    obtain ⟨htold, hfollows⟩ := tell_told factories l account record i x
    simp only [tellAll, Traced.value_bind]
    generalize (tell factories l account record i x).value = t at htold hfollows ⊢
    obtain ⟨f, l₁⟩ := t
    cases f with
    | some f => exact ⟨htold, by simp⟩
    | none =>
      obtain ⟨htold', hfollows'⟩ := ih l₁
      refine ⟨htold.trans htold', fun hnone id minimum hm ho => ?_⟩
      rcases List.mem_cons.1 hm with heq | hm
      · obtain ⟨rfl, rfl⟩ := Prod.mk.inj heq
        exact htold'.follows _ _ (hfollows rfl rfl _ ho)
      · exact hfollows' hnone id minimum hm (htold.opened id minimum ho)

theorem tell_ne_none_iff (factories : Factories κ) (l : Ledger κ) (account : Bytes)
    (record : Record) (id : Nat) (x : Listener) :
    (tell factories l account record id x).value.1 ≠ none ↔ Fails factories l (id, x) := by
  cases x with
  | observer raises => exact Iff.rfl
  | registry => exact refresh_ne_none_iff factories l id

theorem fails_tell_iff {id : Nat} {x : Listener} (h : ¬ Fails factories l (id, x)) (account : Bytes)
    (record : Record) (e : Nat × Listener) :
    Fails factories (tell factories l account record id x).value.2 e ↔ Fails factories l e := by
  cases x with
  | observer raises => exact Iff.rfl
  | registry => exact fails_refresh_iff h e

theorem tellAll_ne_none_iff (factories : Factories κ) (account : Bytes) (record : Record)
    (xs : List (Nat × Listener)) (l : Ledger κ) :
    (tellAll factories account record xs l).value.1 ≠ none ↔ ∃ e ∈ xs, Fails factories l e := by
  induction xs generalizing l with
  | nil => simp [tellAll]
  | cons e xs ih =>
    obtain ⟨id, x⟩ := e
    have hfirst := tell_ne_none_iff factories l account record id x
    have hothers (h : ¬ Fails factories l (id, x)) := fails_tell_iff h account record
    simp only [tellAll, Traced.value_bind, List.exists_mem_cons_iff]
    generalize (tell factories l account record id x).value = t at hfirst hothers ⊢
    obtain ⟨f, l₁⟩ := t
    cases f with
    | some f => simp [hfirst.1]
    | none =>
      have hnot : ¬ Fails factories l (id, x) := fun h => hfirst.2 h rfl
      rw [or_iff_right hnot]
      simp only [← hothers hnot]
      exact ih l₁

/-- What is committed is reported, after every registry has been rebuilt, or a listener raises a
failure. -/
theorem announce_told (factories : Factories κ) (l : Ledger κ) (account : Bytes) (record : Record)
    (db : Database) : Told { l with db } (announce factories l account (.ok record, db)).value.2 ∧
      ((∃ f, (announce factories l account (.ok record, db)).value.1 = .raised f) ∨
        (announce factories l account (.ok record, db)).value.1 = .done record ∧
          ∀ id minimum, (id, .registry) ∈ l.listeners → l.Opened id minimum →
            (announce factories l account (.ok record, db)).value.2.Follows id minimum) := by
  obtain ⟨htold, hfollows⟩ := tellAll_told factories account record l.listeners { l with db }
  simp only [announce, Traced.value_bind]
  generalize (tellAll factories account record l.listeners { l with db }).value = t
    at htold hfollows ⊢
  obtain ⟨f, l'⟩ := t
  cases f with
  | some f => exact ⟨htold, .inl ⟨f, rfl⟩⟩
  | none => exact ⟨htold, .inr ⟨rfl, hfollows rfl⟩⟩

theorem announce_raised_iff (factories : Factories κ) (l : Ledger κ) (account : Bytes)
    (record : Record) (db : Database) :
    (∃ f, (announce factories l account (.ok record, db)).value.1 = .raised f) ↔
      ∃ e ∈ l.listeners, Fails factories { l with db } e := by
  rw [← tellAll_ne_none_iff factories account record]
  simp only [announce, Traced.value_bind]
  generalize (tellAll factories account record l.listeners { l with db }).value = t
  obtain ⟨f, l'⟩ := t
  cases f <;> simp

theorem announce_of_quiet (hf : factories.Steady) (hq : l.Quiet) (account : Bytes)
    (record : Record) (db : Database) :
    (announce factories l account (.ok record, db)).value.1 = .done record := by
  obtain ⟨-, hraised | ⟨hdone, -⟩⟩ := announce_told factories l account record db
  · obtain ⟨e, he, hfails⟩ := (announce_raised_iff factories l account record db).1 hraised
    exact absurd hfails (not_fails_of_quiet hf (l := { l with db }) hq he)
  · exact hdone

end Ledger

end StakeQuorum.Stake
