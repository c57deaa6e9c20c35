import StakeQuorum.Proofs.Account.Listing
import StakeQuorum.Stake.Ledger

/-! # Listed stakes

The ledger lists exactly the stakes that it finds under their account keys, in the order of the
keys, so two databases list the same stakes when they hold the same stake under every key.
-/

namespace StakeQuorum.Stake

open Host Store

variable {db db' : Database} {program key : Bytes} {r : Record}

theorem Record.decode?_nil : Record.decode? [] = none := by decide

/-- A key holds an account of the program with a record. -/
structure StakeAt (db : Database) (program key : Bytes) (a : Account) (r : Record) : Prop where
  held : held? db key = some a
  owned : a.owner = program
  decoded : Record.decode? a.data = some r

def staked? (db : Database) (program key : Bytes) : Option Record :=
  (held? db key).bind fun a => if a.owner = program then Record.decode? a.data else none

theorem staked?_eq_some_iff :
    staked? db program key = some r ↔ ∃ a, StakeAt db program key a r := by
  simp only [staked?, Option.bind_eq_some_iff, Option.ite_none_right_eq_some]
  constructor
  · rintro ⟨a, ha, ho, hr⟩
    exact ⟨a, ha, ho, hr⟩
  · rintro ⟨a, ha, ho, hr⟩
    exact ⟨a, ha, ho, hr⟩

theorem staked?_eq_none (h : ∀ b, held? db key = some b → b.owner = program →
    Record.decode? b.data = none) : staked? db program key = none := by
  refine Option.eq_none_iff_forall_ne_some.2 ?_
  intro r hr
  obtain ⟨b, hb, ho, hd⟩ := staked?_eq_some_iff.1 hr
  exact absurd ((h b hb ho).symm.trans hd) (by simp)

theorem staked?_of_fresh (h : record? db key = none) : staked? db program key = none := by
  rw [staked?, held?, h]
  rfl

theorem staked?_of_record?_eq (h : record? db' key = record? db key) :
    staked? db' program key = staked? db program key := by
  rw [staked?, staked?, held?, held?, h]

theorem staked?_of_update {caller key : Bytes} {signers : List Bytes} {debit credit : Amount}
    {a : Account} (he : Effect db caller signers (.update key debit credit none) a)
    (hr : record? db' a.key = some a.encode) :
    staked? db' program a.key = staked? db program a.key := by
  cases he with
  | update _ found =>
    obtain rfl := (held?_eq_some found).1
    have hheld := held?_of_record? hr rfl (held?_eq_some found).2
    rw [staked?, staked?, found, hheld]
    rfl

theorem stake?_value (hh : db.Healthy) (program key : Bytes) :
    (stake? db program key).value = staked? db program key := by
  rw [staked?, ← account?_value hh]
  rfl

theorem readStakes_value (as : List Account) : (readStakes as).value =
    as.filterMap fun a => (Record.decode? a.data).map fun r => (a.key, r) := by
  induction as with
  | nil => rfl
  | cons a as ih =>
    unfold readStakes
    cases hd : Record.decode? a.data with
    | none => simp [hd, ih]
    | some r => simp [hd, ih]

theorem stakes_value (db : Database) (program : Bytes) : (stakes db program).value =
    ((accounts db).value.filter (·.owner == program)).filterMap fun a =>
      (Record.decode? a.data).map fun r => (a.key, r) := by
  rw [stakes, Traced.value_bind, readStakes_value]
  rfl

theorem mem_stakes_iff :
    (key, r) ∈ (stakes db program).value ↔ staked? db program key = some r := by
  simp only [stakes_value, List.mem_filterMap, List.mem_filter, beq_iff_eq, Option.map_eq_some_iff,
    Prod.mk.injEq, staked?_eq_some_iff]
  constructor
  · rintro ⟨a, ⟨ha, ho⟩, r', hr, rfl, rfl⟩
    exact ⟨a, mem_accounts_iff.1 ha, ho, hr⟩
  · rintro ⟨a, ha, ho, hr⟩
    obtain rfl := (held?_eq_some ha).1
    exact ⟨a, ⟨mem_accounts_iff.2 ha, ho⟩, r, hr, rfl, rfl⟩

theorem ascending_stakes (db : Database) (program : Bytes) :
    (stakes db program).value.Pairwise fun s t => s.1 < t.1 := by
  rw [stakes_value]
  refine ((ascending_accounts db).filter _).filterMap _ ?_
  intro a b hlt s hs t ht
  obtain ⟨r, -, rfl⟩ := Option.map_eq_some_iff.1 hs
  obtain ⟨r', -, rfl⟩ := Option.map_eq_some_iff.1 ht
  exact hlt

theorem stakes_eq_iff : (stakes db program).value = (stakes db' program).value ↔
    ∀ key, staked? db program key = staked? db' program key := by
  constructor
  · intro h key
    refine Option.ext ?_
    intro r
    rw [← mem_stakes_iff, h, mem_stakes_iff]
  · intro h
    refine eq_of_ascending (ascending_stakes db program) (ascending_stakes db' program) ?_
    rintro ⟨key, r⟩
    rw [mem_stakes_iff, mem_stakes_iff, h]

/-- A deposit funds a wallet or adds to an account, and changes no stake either way. -/
theorem staked?_deposited (hh : db.Healthy) (key : Bytes) (lamports : Amount)
    (program k : Bytes) : staked? (deposited db key lamports) program k = staked? db program k := by
  unfold deposited
  rcases hd : (deposit db key lamports).value with ⟨_ | _, db'⟩
  · rw [deposit_refused hd]
  · obtain ⟨a, hc, rfl⟩ := deposit_ok hh hd
    have hr := record?_insert db key k a.encode
    by_cases hk : key = k
    · subst hk
      rw [if_pos rfl] at hr
      have hheld := held?_of_record? hr hc.key_eq hc.fits
      cases hc with
      | wallet fresh =>
        rw [staked?_of_fresh fresh, staked?, hheld]
        simp [Record.decode?_nil]
      | more found =>
        rw [staked?, staked?, hheld, found]
        rfl
    · rw [if_neg hk] at hr
      exact staked?_of_record?_eq hr

end StakeQuorum.Stake
