import StakeQuorum.Proofs.Stake.Requests

/-! # Registries that follow a ledger

A registry is built when it is opened and rebuilt whenever the ledger tells it of a stake. A request
that is committed is announced, one that is refused and a deposit change no stake, so a registry
mirrors the stakes after every operation unless a listener raises a failure.
-/

namespace StakeQuorum.Stake.Ledger

open ValidatorSet (Mirrors)

variable {κ : Type} {factories : Factories κ} {l : Ledger κ} {id : Nat} {minimum : Amount}

/-- Quiet listeners leave the outcome to the program: an operation is done or refused. -/
theorem serve_of_quiet (hf : factories.Steady) (hq : l.Quiet) (q : Request) :
    (serve factories l q).value.1 = match (q.transact l.db l.program).value with
      | (.ok record, _) => .done record
      | (.error e, _) => .refused e := by
  rw [serve_value]
  rcases (q.transact l.db l.program).value with ⟨_ | record, db⟩
  · rfl
  · exact announce_of_quiet hf hq q.account record db

/-! ### Runs -/

/-- An operation is left by a failure that a listener raises. -/
def Op.Raises (factories : Factories κ) (l : Ledger κ) : Op → Prop
  | .deposit .. => False
  | .serve q => ∃ f, (Ledger.serve factories l q).value.1 = .raised f

theorem Quiet.not_raises (hf : factories.Steady) (hq : l.Quiet) (op : Op) :
    ¬ op.Raises factories l := by
  cases op with
  | deposit => exact fun h => h.elim
  | serve q =>
    rintro ⟨f, hraised⟩
    rw [serve_of_quiet hf hq] at hraised
    rcases h : (q.transact l.db l.program).value with ⟨_ | _, _⟩ <;> simp [h] at hraised

theorem listeners_step (factories : Factories κ) (l : Ledger κ) (op : Op) :
    (step factories l op).listeners = l.listeners := by
  cases op with
  | deposit => rfl
  | serve q =>
    rw [step, serve_value]
    rcases (q.transact l.db l.program).value with ⟨_ | record, db⟩
    · rfl
    · exact (announce_told factories l q.account record db).1.listeners

theorem Quiet.run (hq : l.Quiet) (ops : List Op) : (run factories l ops).Quiet := by
  induction ops generalizing l with
  | nil => exact hq
  | cons op ops ih =>
    refine ih (l := step factories l op) ?_
    rw [Quiet, listeners_step]
    exact hq

/-- A registry listens to a ledger and mirrors its stakes. -/
structure Attached (l : Ledger κ) (id : Nat) (minimum : Amount) : Prop where
  listed : (id, .registry) ∈ l.listeners
  follows : l.Follows id minimum

theorem Follows.opened (h : l.Follows id minimum) : l.Opened id minimum := by
  obtain ⟨r, hr, hmin, -⟩ := h
  exact ⟨r, hr, hmin⟩

theorem Attached.step (hh : l.db.Healthy) (h : l.Attached id minimum) {op : Op}
    (hop : ¬ op.Raises factories l) : (step factories l op).Attached id minimum := by
  refine ⟨(listeners_step factories l op).symm ▸ h.listed, ?_⟩
  cases op with
  | deposit key lamports =>
    obtain ⟨r, hr, hmin, hm⟩ := h.follows
    refine ⟨r, hr, hmin, ?_⟩
    have hsame : (stakes (Host.deposited l.db key lamports) l.program).value =
        (stakes l.db l.program).value :=
      stakes_eq_iff.2 (staked?_deposited hh key lamports l.program)
    rw [← hsame] at hm
    exact hm
  | serve q =>
    rw [Op.Raises, serve_value] at hop
    rw [Ledger.step, serve_value]
    rcases ht : (q.transact l.db l.program).value with ⟨_ | record, db⟩
    · obtain rfl := transact_refused ht
      exact h.follows
    · rw [ht] at hop
      obtain ⟨-, hraised | ⟨-, hfollows⟩⟩ := announce_told factories l q.account record db
      · exact absurd hraised hop
      · exact hfollows id minimum h.listed h.follows.opened

theorem Attached.run (hh : l.db.Healthy) (h : l.Attached id minimum) {ops : List Op}
    (hops : ∀ n (op : Op), ops[n]? = some op →
      ¬ op.Raises factories (run factories l (ops.take n))) :
    (run factories l ops).Attached id minimum := by
  induction ops generalizing l with
  | nil => exact h
  | cons op ops ih =>
    have hfirst : ¬ op.Raises factories l := hops 0 op rfl
    exact ih (healthy_step hh op) (h.step hh hfirst) fun n op' hop' => hops (n + 1) op' hop'

/-! ### Opening -/

def enrolled (l : Ledger κ) (minimum : Amount) (usesFactory : Bool) : Ledger κ :=
  { l with
    listeners := l.listeners ++ [(l.nextId, .registry)]
    registries := l.registries ++ [(l.nextId, { minimum, usesFactory })]
    nextId := l.nextId + 1 }

theorem registry?_enrolled (hid : l.registry? l.nextId = none) (minimum : Amount)
    (usesFactory : Bool) :
    registry? (l.enrolled minimum usesFactory) l.nextId = some { minimum, usesFactory } := by
  have hnone : l.registries.lookup l.nextId = none := hid
  simp [enrolled, registry?, List.lookup_append, hnone]

theorem openRegistry_value (factories : Factories κ) (l : Ledger κ) (minimum : Amount)
    (usesFactory : Bool) : (openRegistry factories l minimum usesFactory).value =
      match (refresh factories (l.enrolled minimum usesFactory) l.nextId).value with
      | (some f, l') => (.error f, l'.closeRegistry l.nextId)
      | (none, l') => (.ok l.nextId, l') := by
  simp only [openRegistry, addListener, Traced.value_bind]
  unfold enrolled
  generalize (refresh factories _ l.nextId).value = t
  obtain ⟨f, l'⟩ := t
  cases f <;> rfl

theorem openRegistry_of_steady (hf : factories.Steady) (hid : l.registry? l.nextId = none)
    (minimum : Amount) (usesFactory : Bool) :
    ∃ l', (openRegistry factories l minimum usesFactory).value = (.ok l.nextId, l') ∧
      l'.db = l.db ∧ l'.listeners = l.listeners ++ [(l.nextId, .registry)] ∧
      l'.Attached l.nextId minimum := by
  have hopened : (l.enrolled minimum usesFactory).Opened l.nextId minimum :=
    ⟨_, registry?_enrolled hid minimum usesFactory, rfl⟩
  have hnone := refresh_of_steady hf (l.enrolled minimum usesFactory) l.nextId
  obtain ⟨htold, hfollows⟩ := refresh_told factories (l.enrolled minimum usesFactory) l.nextId
  have hlisted : (l.nextId, Listener.registry) ∈ (l.enrolled minimum usesFactory).listeners := by
    simp [enrolled]
  refine ⟨(refresh factories (l.enrolled minimum usesFactory) l.nextId).value.2, ?_, htold.db,
    htold.listeners, htold.listeners.symm ▸ hlisted, hfollows hnone minimum hopened⟩
  rw [openRegistry_value]
  generalize (refresh factories (l.enrolled minimum usesFactory) l.nextId).value = t at hnone ⊢
  obtain ⟨f, l'⟩ := t
  obtain rfl : f = none := hnone
  rfl

/-- A registry lists, when it is opened and after every operation, exactly the owners whose active
stakes reach its minimum, as long as no listener raises a failure. On a ledger with quiet listeners
no operation is ever left by one. -/
theorem registry_mirrors_stakes (hh : l.db.Healthy) (hf : factories.Steady)
    (hid : l.registry? l.nextId = none) (minimum : Amount) (usesFactory : Bool) :
    ∃ id opened, (openRegistry factories l minimum usesFactory).value = (.ok id, opened) ∧
      opened.db = l.db ∧
      (∀ ops, (∀ n (op : Op), ops[n]? = some op →
          ¬ op.Raises factories (run factories opened (ops.take n))) →
        let after := run factories opened ops
        (∃ r, after.registry? id = some r ∧
          Mirrors minimum (stakes after.db after.program).value r.members) ∧
        ∀ s ∈ (stakes after.db after.program).value,
          ∃ internal, Address.derive s.2.owner = .ok internal) ∧
      (l.Quiet → ∀ ops (op : Op), ¬ op.Raises factories (run factories opened ops)) := by
  obtain ⟨opened, hvalue, hdb, hlisteners, hattached⟩ :=
    openRegistry_of_steady hf hid minimum usesFactory
  refine ⟨l.nextId, opened, hvalue, hdb, ?_, ?_⟩
  · intro ops hops after
    have hafter : after.Attached l.nextId minimum := hattached.run (hdb ▸ hh) hops
    constructor
    · obtain ⟨r, hr, -, hm⟩ := hafter.follows
      exact ⟨r, hr, hm⟩
    · intro s hs
      exact Address.derive_of_isExternal (isExternal_of_mem_stakes hs)
  · intro hq ops op
    have hopened : opened.Quiet := by
      rw [Quiet, hlisteners]
      intro e he
      rcases List.mem_append.1 he with he | he
      · exact hq e he
      · simp [List.mem_singleton.1 he]
    exact (hopened.run ops).not_raises hf op

def staker : Bytes := "DYw8jCTfwHNRJhhmFcbXvVDTqWMEVFBX6ZKUmG5CNSKK"

def twoStakes : List Op :=
  [.deposit staker 100000000000, .serve (.create staker "first" 12000000000 0),
    .serve (.create staker "second" 10000000000 3600),
    .serve (.withdraw "first" staker 5000000000)]

/-- The registry lists the staker with what the two stakes add up to. -/
theorem registry_mirrors_twoStakes :
    let l : Ledger Unit := {}
    let factories : Factories Unit := fun _ _ => .ok none
    let after := run factories (openRegistry factories l 15000000000 true).value.2 twoStakes
    l.db.Healthy ∧ factories.Steady ∧ l.Quiet ∧ l.registry? l.nextId = none ∧
    ∃ r, after.registry? 1 = some r ∧
      Mirrors 15000000000 (stakes after.db after.program).value r.members ∧
      (ValidatorSet.shown r.members).map (fun v => (v.1, v.2.2)) = [(staker, 17000000000)] := by
  intro l factories after
  have hf : factories.Steady := fun _ _ => ⟨none, rfl⟩
  have hq : l.Quiet := by simp [Quiet, l]
  obtain ⟨id, opened, hvalue, -, hall, hquiet⟩ :=
    registry_mirrors_stakes (l := l) rfl hf rfl 15000000000 true
  obtain rfl : 1 = id := Except.ok.inj (congrArg Prod.fst hvalue)
  obtain rfl : (openRegistry factories l 15000000000 true).value.2 = opened :=
    congrArg Prod.snd hvalue
  obtain ⟨⟨r, hr, hm⟩, -⟩ := hall twoStakes fun n op _ => hquiet hq _ op
  have hshown : Option.map (fun r : Registry Unit =>
      (ValidatorSet.shown r.members).map fun v => (v.1, v.2.2)) ( after.registry? 1) =
        some [(staker, 17000000000)] := by
    decide +kernel
  rw [hr] at hshown
  exact ⟨rfl, hf, hq, rfl, r, hr, hm, Option.some.inj hshown⟩

end StakeQuorum.Stake.Ledger
