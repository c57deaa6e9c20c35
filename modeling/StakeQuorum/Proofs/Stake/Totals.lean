import StakeQuorum.Proofs.Account.Lamports
import StakeQuorum.Proofs.Runs
import StakeQuorum.Proofs.Stake.Requests

/-! # The total of all stakes

The ledger adds the active amounts modulo `2 ^ 64`, while a validator's stake is cut at the
greatest amount. A run keeps the total above every stake and every validator exactly when no new
stake carries it past the greatest amount, and then the total is the sum over the unbounded numbers.
-/

namespace StakeQuorum.Stake

open Host Store
open ValidatorSet (ClientFactory activeOf activeSum Stakes)

variable {κ : Type} {db db' : Database} {program key : Bytes} {q : Request} {stakes : Stakes}

/-! ### Sums -/

def Record.counted (r : Record) : Nat := if r.active then r.amount.toNat else 0

/-- The sum of the active amounts, over the unbounded numbers. -/
def activeTotal (stakes : Stakes) : Nat := (stakes.map (·.2.counted)).sum

/-- The reported total is the sum modulo `2 ^ 64`. -/
theorem totalStaked_value (db : Database) (program : Bytes) : (totalStaked db program).value =
    UInt64.ofNat (activeTotal (Stake.stakes db program).value) := by
  have hamounts : (fun (sum : Amount) (s : Bytes × Record) =>
      if s.2.active then sum + s.2.amount else sum) =
        fun sum s => sum + if s.2.active then s.2.amount else 0 := by
    funext sum s
    split <;> simp
  have hcounted : (fun s : Bytes × Record => (if s.2.active then s.2.amount else 0).toNat) =
      fun s => s.2.counted := by
    funext s
    rw [Record.counted]
    split <;> rfl
  have hvalue : (totalStaked db program).value = totalOf (Stake.stakes db program).value := rfl
  rw [hvalue, totalOf, hamounts, foldl_amounts, hcounted, UInt64.zero_add, activeTotal]

theorem counted_le_activeTotal {s : Bytes × Record} (h : s ∈ stakes) :
    s.2.counted ≤ activeTotal stakes :=
  List.le_sum_of_mem (List.mem_map_of_mem h)

theorem activeSum_le_activeTotal (stakes : Stakes) (o : Bytes) :
    activeSum stakes o ≤ activeTotal stakes := by
  have hcounted : (activeOf stakes o).map (·.2.amount.toNat) =
      (activeOf stakes o).map (·.2.counted) := by
    refine List.map_congr_left ?_
    intro s hs
    have hactive : s.2.active = true := by simp_all [activeOf]
    rw [Record.counted, if_pos hactive]
  rw [activeSum, hcounted]
  exact (List.filter_sublist.map _).sum_le_sum fun n _ => Nat.zero_le n

/-! ### Sums of a database -/

def countedIn (program : Bytes) (a : Account) : Nat :=
  if a.owner = program then (Record.decode? a.data).elim 0 Record.counted else 0

/-- What the stake under a key counts, zero where there is none. -/
def countedAt (db : Database) (program key : Bytes) : Nat :=
  (staked? db program key).elim 0 Record.counted

theorem weightAt_countedIn (db : Database) (program key : Bytes) :
    weightAt (countedIn program) db key = countedAt db program key := by
  unfold weightAt countedAt staked? countedIn
  cases held? db key with
  | none => rfl
  | some a =>
    simp only [Option.elim_some, Option.bind_some]
    split <;> rfl

theorem weigh_countedIn (db : Database) (program : Bytes) :
    db.contents.weigh (weightOf (countedIn program)) =
      activeTotal (Stake.stakes db program).value := by
  rw [weigh_weightOf, stakes_value, activeTotal]
  induction (accounts db).value with
  | nil => rfl
  | cons a as ih =>
    rw [List.map_cons, List.sum_cons, ih, countedIn, List.filter_cons]
    by_cases ho : a.owner = program
    · cases hd : Record.decode? a.data <;> simp [ho, hd]
    · simp [ho]

/-- Two changes make two accounts, and the sum changes by the stakes under their keys. -/
theorem activeTotal_of_pair {signers : List Bytes} {c c' : Change} {accounts : List Account}
    (h : Applied db program signers [c, c'] accounts db') :
    ∃ a a', accounts = [a, a'] ∧ Effect db program signers c a ∧ Effect db program signers c' a' ∧
      activeTotal (Stake.stakes db' program).value +
          (countedAt db program a.key + countedAt db program a'.key) =
        activeTotal (Stake.stakes db program).value +
          (countedAt db' program a.key + countedAt db' program a'.key) := by
  have hsum := h.weigh (countedIn program)
  obtain ⟨a, rest, ha, hrest, rfl⟩ := List.forall₂_cons_left_iff.1 h.effects
  obtain ⟨a', none, ha', hnone, rfl⟩ := List.forall₂_cons_left_iff.1 hrest
  obtain rfl := List.forall₂_nil_left_iff.1 hnone
  refine ⟨a, a', rfl, ha, ha', ?_⟩
  simpa [weigh_countedIn, weightAt_countedIn] using hsum

theorem fits_of_staked {r : Record} (h : staked? db program key = some r) :
    program.length ≤ CompactSize.maxSize := by
  obtain ⟨a, hs⟩ := staked?_eq_some_iff.1 h
  exact hs.owned ▸ (held?_eq_some hs.held).2.1

theorem activeTotal_of_long (h : ¬ program.length ≤ CompactSize.maxSize) :
    activeTotal (Stake.stakes db program).value = 0 := by
  have hnil : (Stake.stakes db program).value = [] := by
    refine List.eq_nil_iff_forall_not_mem.2 ?_
    rintro ⟨key, r⟩ hm
    exact h (fits_of_staked (mem_stakes_iff.1 hm))
  rw [hnil]
  rfl

/-! ### Single operations -/

/-- The total is not below the amount of an active stake nor the stake of a validator. -/
structure TotalCovers (db : Database) (program : Bytes) : Prop where
  stakes : ∀ key r, (stake? db program key).value = some r → r.active = true →
    r.amount ≤ (totalStaked db program).value
  validators : ∀ (κ : Type) (factory : Option (ValidatorSet.ClientFactory κ)) (minimum : Amount)
    (old set : ValidatorSet κ),
    (ValidatorSet.refresh factory minimum old (Stake.stakes db program).value).value = .ok set →
      ∀ v ∈ set.values, v.stake ≤ (totalStaked db program).value

/-- A new stake is committed that carries the total past the greatest amount. -/
def Overflows (db : Database) (program : Bytes) (q : Request) : Prop :=
  (q.transact db program).value.1.isOk ∧ ∃ e ∈ q.payment?,
    Amount.addOverflows (totalStaked db program).value e.2 = true

instance (db : Database) (program : Bytes) (q : Request) : Decidable (Overflows db program q) :=
  inferInstanceAs (Decidable (_ ∧ _))

/-- The sum fits a word, so that the reported total is exact. -/
def Exact (db : Database) (program : Bytes) : Prop :=
  activeTotal (Stake.stakes db program).value < UInt64.size

theorem Exact.total (h : Exact db program) : (totalStaked db program).value.toNat =
    activeTotal (Stake.stakes db program).value := by
  rw [totalStaked_value]
  exact UInt64.toNat_ofNat_of_lt h

theorem Exact.covers (hh : db.Healthy) (h : Exact db program) : TotalCovers db program := by
  constructor
  · intro key r hr hactive
    rw [stake?_value hh, ← mem_stakes_iff] at hr
    have hle := counted_le_activeTotal hr
    rw [Record.counted, if_pos hactive] at hle
    rwa [UInt64.le_iff_toNat_le, h.total]
  · intro κ factory minimum old set hset v hv
    obtain ⟨⟨o, v⟩, he, rfl⟩ := List.mem_map.1 hv
    have hadmits := ((ValidatorSet.get?_of_refresh hset).1 (ByteMap.mem_entries_iff.1 he)).2
    rw [UInt64.le_iff_toNat_le, h.total, hadmits.stake, Amount.toNat_ofTotal]
    exact (Nat.min_le_left _ _).trans (activeSum_le_activeTotal _ _)

theorem exact_of_empty (he : db.contents = {}) (program : Bytes) : Exact db program := by
  have hempty : db.contents.weigh (weightOf (countedIn program)) = 0 := by
    rw [he]
    rfl
  rw [Exact, ← weigh_countedIn, hempty]
  decide

theorem Exact.deposited (hh : db.Healthy) (h : Exact db program) (key : Bytes)
    (lamports : Amount) : Exact (Host.deposited db key lamports) program := by
  rwa [Exact, stakes_eq_iff.2 fun k => staked?_deposited hh key lamports program k]

theorem activeTotal_of_withdrawal {record : Record} (hh : db.Healthy) (hq : q.payment? = none)
    (h : (q.transact db program).value = (.ok record, db')) :
    activeTotal (Stake.stakes db' program).value ≤
      activeTotal (Stake.stakes db program).value := by
  obtain ⟨signers, changes, hd, ha⟩ := transact_ok hh h
  obtain ⟨accounts, happ⟩ : ∃ accounts, Applied db program signers changes accounts db' :=
    apply_ok hh ha
  have hsize := hd.fits
  cases hd with
  | creation asked => exact absurd (asked.symm.trans hq) (by simp)
  | @withdrawal account requester amount a r asked found owned staked covered =>
    obtain ⟨left, payee, rfl, hleft, hpayee, hsum⟩ := activeTotal_of_pair happ
    have hpayeeSame : countedAt db' program payee.key = countedAt db program payee.key := by
      rw [countedAt, countedAt, staked?_of_update hpayee (happ.stored payee (by simp))]
    have hold : staked? db program left.key = some r := by
      rw [hleft.key_eq]
      exact staked?_eq_some_iff.2 ⟨a, found, owned, staked⟩
    have hheld := happ.held? (by simp) (happ.fits (hsize (fits_of_staked hold)) left (by simp))
    have hnew : staked? db' program left.key = some { r with amount := r.amount - amount } := by
      have hext : Address.isExternal r.owner = true := Record.isExternal_of_decode? staked
      cases hleft with
      | @update _ _ _ _ _ a' _ found' =>
        obtain rfl : a' = a := Option.some.inj (found'.symm.trans found)
        exact staked?_eq_some_iff.2 ⟨_, hheld, owned, Record.decode?_layout hext⟩
    have hle : countedAt db' program left.key ≤ countedAt db program left.key := by
      have hsub := UInt64.toNat_sub_of_le _ _ (UInt64.le_iff_toNat_le.2 covered)
      simp only [countedAt, hold, hnew, Option.elim_some, Record.counted, hsub]
      split <;> omega
    omega

theorem activeTotal_of_creation {record : Record} {staker : Bytes} {amount : Amount}
    (hh : db.Healthy) (hp : program.length ≤ CompactSize.maxSize)
    (hq : q.payment? = some (staker, amount))
    (h : (q.transact db program).value = (.ok record, db')) :
    activeTotal (Stake.stakes db' program).value =
        activeTotal (Stake.stakes db program).value + amount.toNat ∧
      ∃ key r, staked? db' program key = some r ∧ r.active = true ∧ r.amount = amount := by
  obtain ⟨signers, changes, hd, ha⟩ := transact_ok hh h
  obtain ⟨accounts, happ⟩ : ∃ accounts, Applied db program signers changes accounts db' :=
    apply_ok hh ha
  have hfits := happ.fits (hd.fits hp)
  cases hd with
  | withdrawal asked => exact absurd (asked.symm.trans hq) (by simp)
  | @creation _ account _ lockPeriod asked external =>
    obtain ⟨rfl, rfl⟩ := Prod.mk.inj (Option.some.inj (hq.symm.trans asked))
    obtain ⟨payer, opened, rfl, hpayer, hopened, hsum⟩ := activeTotal_of_pair happ
    have hpayerSame : countedAt db' program payer.key = countedAt db program payer.key := by
      rw [countedAt, countedAt, staked?_of_update hpayer (happ.stored payer (by simp))]
    have hheld := happ.held? (by simp) (hfits opened (by simp))
    cases hopened with
    | create _ _ fresh =>
      have hnew : staked? db' program account = some (newRecord staker amount lockPeriod) :=
        staked?_eq_some_iff.2 ⟨_, hheld, rfl, Record.decode?_layout external⟩
      have hzero : countedAt db program account = 0 := by
        rw [countedAt, staked?_of_fresh fresh, Option.elim_none]
      have hcounted : countedAt db' program account = amount.toNat := by
        rw [countedAt, hnew]
        rfl
      simp only [hpayerSame, hzero, hcounted] at hsum
      exact ⟨by omega, account, _, hnew, rfl, rfl⟩

theorem overflows_iff (h : Exact db program) : Overflows db program q ↔
    ∃ record db' staker amount, (q.transact db program).value = (.ok record, db') ∧
      q.payment? = some (staker, amount) ∧
      UInt64.size ≤ activeTotal (Stake.stakes db program).value + amount.toNat := by
  simp only [Overflows, fst_isOk_iff_exists, Amount.addOverflows_iff, h.total]
  constructor
  · rintro ⟨⟨record, db', ht⟩, ⟨staker, amount⟩, hq, hle⟩
    exact ⟨record, db', staker, amount, ht, hq, hle⟩
  · rintro ⟨record, db', staker, amount, ht, hq, hle⟩
    exact ⟨⟨record, db', ht⟩, (staker, amount), hq, hle⟩

/-- Only a new stake that overflows keeps the total from being exact. -/
theorem Exact.after (hh : db.Healthy) (h : Exact db program) (hn : ¬ Overflows db program q) :
    Exact (q.after db program) program := by
  rw [overflows_iff h] at hn
  unfold Request.after
  rcases ht : (q.transact db program).value with ⟨_ | record, db'⟩
  · rwa [transact_refused ht]
  · cases hq : q.payment? with
    | none => exact (activeTotal_of_withdrawal hh hq ht).trans_lt h
    | some e =>
      obtain ⟨staker, amount⟩ := e
      by_cases hp : program.length ≤ CompactSize.maxSize
      · rw [Exact, (activeTotal_of_creation hh hp hq ht).1]
        exact Nat.not_le.1 fun hle => hn ⟨_, _, staker, amount, ht, hq, hle⟩
      · rw [Exact, activeTotal_of_long hp]
        decide

theorem not_covers_of_overflows (hh : db.Healthy) (h : Exact db program)
    (ho : Overflows db program q) : ¬ TotalCovers (q.after db program) program := by
  obtain ⟨record, db', staker, amount, ht, hq, hle⟩ := (overflows_iff h).1 ho
  have hp : program.length ≤ CompactSize.maxSize := by
    by_contra hlong
    rw [activeTotal_of_long hlong, Nat.zero_add] at hle
    exact absurd amount.toNat_lt (Nat.not_lt.2 hle)
  obtain ⟨hsum, key, r, hr, hactive, rfl⟩ := activeTotal_of_creation hh hp hq ht
  intro hcovers
  have hafter : q.after db program = db' := by rw [Request.after, ht]
  have hhafter : db'.Healthy := hafter ▸ q.healthy_after hh
  rw [hafter] at hcovers
  have hcovered := hcovers.stakes key r ((stake?_value hhafter program key).trans hr) hactive
  rw [UInt64.le_iff_toNat_le, totalStaked_value, hsum, UInt64.toNat_ofNat'] at hcovered
  -- what is left of the sum is what it was before, less `2 ^ 64` minus the new amount
  have hbound := r.amount.toNat_lt
  rw [Exact, UInt64.size] at h
  rw [UInt64.size] at hle
  omega

/-! ### Runs -/

namespace Ledger

variable {factories : Factories κ} {l : Ledger κ}

/-- An operation is a new stake that carries the total past the greatest amount. -/
def Op.Overflows (l : Ledger κ) : Op → Prop
  | .deposit .. => False
  | .serve q => Stake.Overflows l.db l.program q

instance (l : Ledger κ) (op : Op) : Decidable (op.Overflows l) :=
  match op with
  | .deposit .. => inferInstanceAs (Decidable False)
  | .serve q => inferInstanceAs (Decidable (Stake.Overflows l.db l.program q))

theorem exact_step (factories : Factories κ) (hh : l.db.Healthy) (h : Exact l.db l.program)
    {op : Op} (hn : ¬ op.Overflows l) : Exact (step factories l op).db l.program := by
  cases op with
  | deposit key lamports => exact h.deposited hh key lamports
  | serve q =>
    rw [step, serve_db]
    exact h.after hh hn

theorem covers_step_iff (factories : Factories κ) (hh : l.db.Healthy)
    (h : Exact l.db l.program) (op : Op) :
    TotalCovers (step factories l op).db l.program ↔ ¬ op.Overflows l := by
  constructor
  · intro hcovers ho
    cases op with
    | deposit => exact ho
    | serve q =>
      rw [step, serve_db] at hcovers
      exact not_covers_of_overflows hh h ho hcovers
  · intro hn
    exact (exact_step factories hh h hn).covers (healthy_step hh op)

/-- From an empty database on, the total is never below a stake or a validator exactly when no
operation carries it past the greatest amount. -/
theorem total_covers_iff_not_overflows (hh : l.db.Healthy) (he : l.db.contents = {})
    (ops : List Op) : (∀ n, TotalCovers (run factories l (ops.take n)).db l.program) ↔
      ∀ n (op : Op), ops[n]? = some op → ¬ op.Overflows (run factories l (ops.take n)) := by
  have hinv (m : Ledger κ) (op : Op)
      (hm : m.db.Healthy ∧ m.program = l.program ∧ Exact m.db l.program)
      (hn : ¬ op.Overflows m) : (step factories m op).db.Healthy ∧
        (step factories m op).program = l.program ∧ Exact (step factories m op).db l.program := by
    obtain ⟨hhm, hp, hexact⟩ := hm
    rw [← hp] at hexact ⊢
    exact ⟨healthy_step hhm op, step_program factories m op, exact_step factories hhm hexact hn⟩
  have hstep (m : Ledger κ) (op : Op)
      (hm : m.db.Healthy ∧ m.program = l.program ∧ Exact m.db l.program) :
      TotalCovers (step factories m op).db l.program ↔ ¬ op.Overflows m := by
    obtain ⟨hhm, hp, hexact⟩ := hm
    rw [← hp] at hexact ⊢
    exact covers_step_iff factories hhm hexact op
  have hstart : Exact l.db l.program := exact_of_empty he l.program
  exact forall_foldl_take_iff_of_kept (step factories) (p := fun m => TotalCovers m.db l.program)
    hinv hstep ⟨hh, rfl, hstart⟩ (hstart.covers hh) ops

def firstStaker : Bytes := "DYw8jCTfwHNRJhhmFcbXvVDTqWMEVFBX6ZKUmG5CNSKK"

def secondStaker : Bytes := "7xKXtg2CW87d97TXJSDpbD5jBkheTqA83TZRuJosgAsU"

def greatStakes : List Op :=
  [.deposit firstStaker Amount.max, .deposit secondStaker Amount.max,
    .serve (.create firstStaker "first" 10000000000000000000 0),
    .serve (.withdraw "first" firstStaker 5000000000000000000),
    .serve (.create secondStaker "second" 10000000000000000000 0)]

theorem total_covers_greatStakes : ({} : Ledger Unit).db.Healthy ∧
    ({} : Ledger Unit).db.contents = {} ∧
    ∀ n, TotalCovers (run (fun _ _ => .ok none) ({} : Ledger Unit) (greatStakes.take n)).db
      ({} : Ledger Unit).program := by
  have hh : ({} : Ledger Unit).db.Healthy := rfl
  refine ⟨hh, rfl, (total_covers_iff_not_overflows hh rfl greatStakes).2 ?_⟩
  intro n op hop
  rcases n with _ | _ | _ | _ | _ | n
  · obtain rfl := Option.some.inj hop
    exact id
  · obtain rfl := Option.some.inj hop
    exact id
  · obtain rfl := Option.some.inj hop
    decide +kernel
  · obtain rfl := Option.some.inj hop
    decide +kernel
  · obtain rfl := Option.some.inj hop
    decide +kernel
  · simp [greatStakes] at hop

def wrappedStakes : List Op :=
  [.deposit firstStaker Amount.max, .deposit secondStaker Amount.max,
    .serve (.create firstStaker "first" 10000000000000000000 0),
    .serve (.create secondStaker "second" 10000000000000000000 0)]

theorem not_total_covers_wrappedStakes :
    let db := (run (fun _ _ => .ok none) ({} : Ledger Unit) wrappedStakes).db
    let total := (totalStaked db defaultProgram).value
    ({} : Ledger Unit).db.Healthy ∧ ({} : Ledger Unit).db.contents = {} ∧
    ({} : Ledger Unit).program = defaultProgram ∧
    (∃ r ∈ (stake? db defaultProgram "second").value, r.active = true ∧ total < r.amount) ∧
    (∃ set ∈ (ValidatorSet.refresh (none : Option (ClientFactory Unit)) Validator.defaultMinimum {}
        (Stake.stakes db defaultProgram).value).value.toOption,
      ∃ v ∈ set.values, total < v.stake) ∧
    ¬ TotalCovers db defaultProgram := by
  intro db total
  have hstake : ∃ r ∈ (stake? db defaultProgram "second").value,
      r.active = true ∧ total < r.amount := by decide +kernel
  refine ⟨rfl, rfl, rfl, hstake, by decide +kernel, ?_⟩
  intro hcovers
  obtain ⟨r, hr, hactive, hlt⟩ := hstake
  exact absurd (hcovers.stakes "second" r hr hactive) (UInt64.not_le.2 hlt)

end Ledger

end StakeQuorum.Stake
