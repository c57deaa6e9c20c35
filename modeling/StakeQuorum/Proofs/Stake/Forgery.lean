import StakeQuorum.Proofs.Stake.Listing

/-! # Stakes and other programs

Another program cannot rewrite a stake, but it can create an account that the stake program owns.
Its change sets leave the stakes as they are exactly when none of their new accounts is such an
account with a record, and then a registry that is rebuilt sees no difference.
-/

namespace StakeQuorum

open Host Store

/-- A change creates an account of the program, which holds a record and can be read back. -/
def Change.Forges (program : Bytes) : Change → Prop
  | .create _ _ owner data => owner = program ∧ program.length ≤ CompactSize.maxSize ∧
      (Stake.Record.decode? data).isSome
  | .update .. => False

instance (program : Bytes) (c : Change) : Decidable (c.Forges program) :=
  match c with
  | .create .. => inferInstanceAs (Decidable (_ ∧ _ ∧ _))
  | .update .. => inferInstanceAs (Decidable False)

namespace Stake

variable {κ : Type} {db db' : Database} {caller program : Bytes} {signers : List Bytes}
  {changes : List Change} {accounts : List Account} {c : Change} {a : Account} {key : Bytes}

/-- A change by another program that is no forgery leaves the stake under its key as it is. -/
theorem staked?_of_effect (hne : caller ≠ program) (he : Effect db caller signers c a)
    (hr : record? db' a.key = some a.encode) (hf : ¬ c.Forges program) :
    staked? db' program a.key = staked? db program a.key := by
  have hplain := he
  cases he with
  | @create key owner data lamports _ _ fresh =>
    rw [staked?_of_fresh fresh]
    refine staked?_eq_none ?_
    intro b hb ho
    have hfits := (held?_eq_some hb).2
    obtain rfl := eq_of_held? hr rfl hb
    by_contra hd
    exact hf ⟨ho, ho ▸ hfits.1, Option.isSome_iff_ne_none.2 hd⟩
  | @update key debit credit lamports newData a' _ found _ _ owned =>
    obtain rfl := (held?_eq_some found).1
    cases newData with
    | none => exact staked?_of_update hplain hr
    | some data =>
      have hforeign : a'.owner ≠ program := fun ho => hne ((owned rfl).symm.trans ho)
      rw [staked?_eq_none, staked?_eq_none]
      · intro b hb ho
        obtain rfl : a' = b := Option.some.inj (found.symm.trans hb)
        exact absurd ho hforeign
      · intro b hb ho
        obtain rfl := eq_of_held? hr rfl hb
        exact absurd ho hforeign

theorem staked?_of_forges (he : Effect db caller signers c a)
    (hr : record? db' a.key = some a.encode) (hf : c.Forges program) :
    staked? db' program a.key ≠ staked? db program a.key := by
  cases he with
  | @create key owner data lamports _ _ fresh =>
    obtain ⟨rfl, hlen, hd⟩ := hf
    obtain ⟨r, hd⟩ := Option.isSome_iff_exists.1 hd
    have hsize : Record.size ≤ CompactSize.maxSize := by decide
    have hheld := held?_of_record? hr rfl ⟨hlen, (Record.length_of_decode? hd).trans_le hsize⟩
    rw [staked?_of_fresh fresh, staked?_eq_some_iff.2 ⟨_, hheld, rfl, hd⟩]
    simp
  | update => exact absurd hf id

theorem stakes_eq_iff_of_applied (hne : caller ≠ program)
    (h : Applied db caller signers changes accounts db') :
    (stakes db' program).value = (stakes db program).value ↔
      ∀ c ∈ changes, ¬ c.Forges program := by
  rw [stakes_eq_iff]
  constructor
  · intro hsame c hc hf
    obtain ⟨a, ha, he⟩ := exists_of_forall₂_left h.effects hc
    exact staked?_of_forges he (h.stored a ha) hf (hsame a.key)
  · intro hnone key
    rcases h.record?_cases key with hr | ⟨c, hc, a, -, he, rfl, hr⟩
    · rw [staked?, staked?, held?, held?, hr]
    · exact staked?_of_effect hne he hr (hnone c hc)

theorem Ledger.refresh_of_stakes_eq (factories : Factories κ) (l : Ledger κ)
    (id : Nat) (h : (stakes db' l.program).value = (stakes l.db l.program).value) :
    (refresh factories { l with db := db' } id).value =
      ((refresh factories l id).value.1, { (refresh factories l id).value.2 with db := db' }) := by
  have hreg : registry? { l with db := db' } id = l.registry? id := rfl
  unfold refresh
  rw [hreg]
  cases l.registry? id with
  | none => rfl
  | some r =>
    have hlift (db : Database) : (liftM (stakes db l.program) : Noticed _).value =
        (stakes db l.program).value := rfl
    simp only [Traced.value_bind, hlift, h]
    generalize (ValidatorSet.refresh (if r.usesFactory = true then some (factories id) else none)
      r.minimum r.members (stakes l.db l.program).value).value = members
    cases members <;> rfl

/-- A change set of another program leaves the stakes as they are exactly when it is refused or
creates no account of the stake program with a record; then a registry is rebuilt as before. -/
theorem stakes_eq_iff_not_forges (l : Ledger κ) (hh : l.db.Healthy) (hne : caller ≠ l.program) :
    ((stakes (applied l.db caller signers changes) l.program).value =
        (stakes l.db l.program).value ↔
      ((apply l.db caller signers changes).value.1.isOk → ∀ c ∈ changes, ¬ c.Forges l.program)) ∧
    (((apply l.db caller signers changes).value.1.isOk → ∀ c ∈ changes, ¬ c.Forges l.program) →
      ∀ (factories : Factories κ) (id : Nat),
        (Ledger.refresh factories { l with db := applied l.db caller signers changes } id).value =
          ((Ledger.refresh factories l id).value.1,
            { (Ledger.refresh factories l id).value.2 with
              db := applied l.db caller signers changes })) := by
  have hstakes : (stakes (applied l.db caller signers changes) l.program).value =
        (stakes l.db l.program).value ↔
      ((apply l.db caller signers changes).value.1.isOk → ∀ c ∈ changes, ¬ c.Forges l.program) := by
    unfold applied
    rcases h : (apply l.db caller signers changes).value with ⟨_ | _, db'⟩
    · simp [apply_refused h, Except.isOk, Except.toBool]
    · obtain ⟨accounts, ha⟩ := apply_ok hh h
      simp only [stakes_eq_iff_of_applied hne ha, Except.isOk, Except.toBool, forall_const]
  refine ⟨hstakes, ?_⟩
  intro hforge factories id
  exact Ledger.refresh_of_stakes_eq factories l id (hstakes.2 hforge)

def rentedRecord (owner : Bytes) : List Change :=
  let record : Record :=
    { owner := "DYw8jCTfwHNRJhhmFcbXvVDTqWMEVFBX6ZKUmG5CNSKK", amount := 2 ^ 60, active := true }
  [.update "payer" surcharge 0 none, .create "forged" surcharge owner record.layout]

theorem stakes_eq_after_rentedRecord :
    let l : Ledger Unit := { db := deposited {} "payer" 1000000000 }
    l.db.Healthy ∧ "intruder" ≠ l.program ∧
    (apply l.db "intruder" ["payer"] (rentedRecord "intruder")).value.1.isOk ∧
    (stakes (applied l.db "intruder" ["payer"] (rentedRecord "intruder")) l.program).value =
      (stakes l.db l.program).value := by
  intro l
  have hne : "intruder" ≠ l.program := by decide
  have hforge : ∀ c ∈ rentedRecord "intruder", ¬ c.Forges l.program := by decide
  refine ⟨rfl, hne, by rfl, ?_⟩
  exact (stakes_eq_iff_not_forges l rfl hne).1.2 fun _ => hforge

theorem stakes_ne_after_rentedRecord :
    let l : Ledger Unit := { db := deposited {} "payer" 1000000000 }
    l.db.Healthy ∧ "intruder" ≠ l.program ∧
    (stakes (applied l.db "intruder" ["payer"] (rentedRecord l.program)) l.program).value ≠
      (stakes l.db l.program).value := by
  intro l
  exact ⟨rfl, by decide, by decide⟩

end Stake

end StakeQuorum
