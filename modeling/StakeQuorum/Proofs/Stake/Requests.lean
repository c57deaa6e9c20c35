import StakeQuorum.Proofs.Stake.Telling

/-! # What a ledger can be asked to do

A request creates a stake or withdraws from one, directly or as an encoded instruction. It leaves
the database that its transaction leaves, whoever is told about it, and a transaction that is
committed applies one of two change sets.
-/

namespace StakeQuorum.Stake

open Store

variable {κ : Type} {db db' : Database} {program : Bytes} {signers : List Bytes}
  {changes : List Change} {record : Record}

inductive Request
  | create (staker account : Bytes) (amount : Amount) (lockPeriod : Int64)
  | withdraw (account requester : Bytes) (amount : Amount)
  | process (signers : List Bytes) (staker account data : Bytes)
  deriving DecidableEq, Repr

namespace Request

def account : Request → Bytes
  | create _ account _ _ => account
  | withdraw account _ _ => account
  | process _ _ account _ => account

def transact (db : Database) (program : Bytes) : Request → Logged Settlement
  | create staker account amount lockPeriod =>
    Stake.create db program [staker] staker account amount lockPeriod
  | withdraw account requester amount =>
    Stake.withdraw db program [requester] account requester amount
  | process signers staker account data => Stake.process db program signers staker account data

def payment? : Request → Option (Bytes × Amount)
  | create staker _ amount _ => some (staker, amount)
  | withdraw .. => none
  | process _ staker _ data =>
    match Instruction.decode? data with
    | some (.createStake amount _) => some (staker, amount)
    | _ => none

def after (db : Database) (program : Bytes) (q : Request) : Database :=
  (q.transact db program).value.2

end Request

/-! ### Ledgers -/

namespace Ledger

variable {factories : Factories κ} {l : Ledger κ}

def serve (factories : Factories κ) (l : Ledger κ) : Request → Noticed (Outcome Record × Ledger κ)
  | .create staker account amount lockPeriod =>
    createStake factories l staker account amount lockPeriod
  | .withdraw account requester amount => withdrawStake factories l account requester amount
  | .process signers staker account data =>
    processInstruction factories l signers staker account data

theorem serve_value (factories : Factories κ) (l : Ledger κ) (q : Request) :
    (serve factories l q).value =
      (announce factories l q.account (q.transact l.db l.program).value).value := by
  cases q <;> rfl

theorem announce_frame (factories : Factories κ) (l : Ledger κ) (account : Bytes)
    (x : Settlement) : (announce factories l account x).value.2.db = x.2 ∧
      (announce factories l account x).value.2.program = l.program := by
  obtain ⟨_ | record, db⟩ := x
  · exact ⟨rfl, rfl⟩
  · have htold := (announce_told factories l account record db).1
    exact ⟨htold.db, htold.program⟩

theorem serve_db (factories : Factories κ) (l : Ledger κ) (q : Request) :
    (serve factories l q).value.2.db = q.after l.db l.program := by
  rw [serve_value, (announce_frame ..).1, Request.after]

theorem serve_program (factories : Factories κ) (l : Ledger κ) (q : Request) :
    (serve factories l q).value.2.program = l.program := by
  rw [serve_value, (announce_frame ..).2]

/-! ### Runs -/

/-- One operation on a ledger and its host. -/
inductive Op
  | deposit (key : Bytes) (lamports : Amount)
  | serve (q : Request)
  deriving DecidableEq, Repr

def step (factories : Factories κ) (l : Ledger κ) : Op → Ledger κ
  | .deposit key lamports => { l with db := Host.deposited l.db key lamports }
  | .serve q => (serve factories l q).value.2

def run (factories : Factories κ) (l : Ledger κ) (ops : List Op) : Ledger κ :=
  ops.foldl (step factories) l

theorem step_program (factories : Factories κ) (l : Ledger κ) (op : Op) :
    (step factories l op).program = l.program := by
  cases op with
  | deposit => rfl
  | serve q => exact serve_program factories l q

theorem run_program (factories : Factories κ) (l : Ledger κ) (ops : List Op) :
    (run factories l ops).program = l.program := by
  induction ops generalizing l with
  | nil => rfl
  | cons op ops ih => exact (ih (step factories l op)).trans (step_program factories l op)

end Ledger

/-! ### Transactions -/

/-- The change sets that requests apply, and the records that they leave. -/
inductive Deal (db : Database) (program : Bytes) (q : Request) : List Change → Record → Prop
  | creation {staker account : Bytes} {amount : Amount} {lockPeriod : Int64}
      (asked : q.payment? = some (staker, amount)) (external : Address.isExternal staker = true)
      (bounded : amount.toNat + surcharge.toNat < UInt64.size) :
      Deal db program q
        [.update staker (amount + surcharge) 0 none,
          .create account (amount + surcharge) program (newRecord staker amount lockPeriod).layout]
        (newRecord staker amount lockPeriod)
  | withdrawal {account requester : Bytes} {amount : Amount} {a : Account} {r : Record}
      (asked : q.payment? = none) (found : Host.held? db account = some a)
      (owned : a.owner = program) (staked : Record.decode? a.data = some r)
      (covered : amount.toNat ≤ r.amount.toNat) :
      Deal db program q
        [.update account amount 0 (some { r with amount := r.amount - amount }.layout),
          .update requester 0 amount none]
        { r with amount := r.amount - amount }

theorem Deal.fits {q : Request} (h : Deal db program q changes record)
    (hp : program.length ≤ CompactSize.maxSize) : ∀ c ∈ changes, c.Fits := by
  have hsize : Record.size ≤ CompactSize.maxSize := by decide
  intro c hc
  cases h with
  | creation _ external =>
    simp only [List.mem_cons, List.not_mem_nil, or_false] at hc
    rcases hc with rfl | rfl
    · intro data hd
      simp at hd
    · exact ⟨hp, (Record.length_layout external).trans_le hsize⟩
  | @withdrawal account requester amount a r _ _ _ staked =>
    have hr : Address.isExternal r.owner = true := Record.isExternal_of_decode? staked
    simp only [List.mem_cons, List.not_mem_nil, or_false] at hc
    rcases hc with rfl | rfl
    · intro data hd
      obtain rfl := Option.mem_some.1 hd
      exact (Record.length_layout (r := { r with amount := r.amount - amount }) hr).trans_le hsize
    · intro data hd
      simp at hd

theorem commit_value {rejected done : Bytes} :
    (commit db program signers changes rejected done record).value =
      match (Host.apply db program signers changes).value with
      | (.error e, db') => (.error (.host e), db')
      | (.ok (), db') => (.ok record, db') := by
  unfold commit
  rw [Traced.value_bind]
  rcases (Host.apply db program signers changes).value with ⟨_ | _, db'⟩ <;> rfl

theorem commit_ok {r : Record} {rejected done : Bytes}
    (h : (commit db program signers changes rejected done record).value = (.ok r, db')) :
    r = record ∧ (Host.apply db program signers changes).value = (.ok (), db') := by
  rw [commit_value] at h
  rcases ha : (Host.apply db program signers changes).value with ⟨e | _, db''⟩
  · simp [ha] at h
  · obtain ⟨rfl, rfl⟩ : record = r ∧ db'' = db' := by simpa [ha] using h
    exact ⟨rfl, rfl⟩

theorem commit_refused {rejected done : Bytes} :
    Spares db (commit db program signers changes rejected done record).value := by
  rw [commit_value]
  split
  · obtain rfl := Host.apply_refused ‹_›
    exact .of_error _
  · exact .of_ok ..

theorem process_value (db : Database) (program : Bytes) (signers : List Bytes)
    (staker account data : Bytes) : (process db program signers staker account data).value =
      match Instruction.decode? data with
      | none => (.error (.badInstruction data.length), db)
      | some (.createStake amount lockPeriod) =>
        (create db program signers staker account amount lockPeriod).value
      | some (.withdraw amount) => (withdraw db program signers account staker amount).value := by
  unfold process
  split
  · rename_i hd
    rw [hd]
    rfl
  · rename_i i hd
    rw [hd]
    cases i <;> rfl

theorem rentFor_layout (h : Address.isExternal record.owner = true) :
    Account.rentFor record.layout = surcharge := by
  rw [Account.rentFor, Record.length_layout h, surcharge]

theorem checkCreate_eq_ok_iff {staker account : Bytes} {amount : Amount} :
    checkCreate signers staker account amount = .ok () ↔
      Address.isExternal staker = true ∧ staker ∈ signers ∧ account ≠ [] ∧
        minimumAmount ≤ amount ∧ amount.toNat + surcharge.toNat < UInt64.size := by
  simp only [checkCreate, ite_error_eq_ok_iff, Bool.not_eq_true, Bool.not_eq_false',
    not_not, List.isEmpty_iff, UInt64.not_lt, Amount.addOverflows_eq_false_iff, and_true, ne_eq]

theorem checkWithdraw_eq_ok_iff {account requester : Bytes} {amount : Amount} {a : Account} :
    checkWithdraw program account requester amount a = .ok record ↔
      a.owner = program ∧ ∃ r, Record.decode? a.data = some r ∧ r.owner = requester ∧
        r.isLocked = false ∧ amount ≤ r.amount ∧
          record = { r with amount := r.amount - amount } := by
  rw [checkWithdraw, ite_error_eq_ok_iff]
  cases Record.decode? a.data with
  | none => simp
  | some r =>
    simp only [ite_error_eq_ok_iff, Bool.not_eq_true, not_not, UInt64.not_lt, Except.ok.injEq,
      Option.some.injEq, exists_eq_left', ne_eq, eq_comm (b := record)]

theorem create_ok {staker account : Bytes} {amount : Amount} {lockPeriod : Int64} {q : Request}
    (hq : q.payment? = some (staker, amount))
    (h : (create db program signers staker account amount lockPeriod).value = (.ok record, db')) :
    ∃ signers changes, Deal db program q changes record ∧
      (Host.apply db program signers changes).value = (.ok (), db') := by
  unfold create at h
  cases hc : checkCreate signers staker account amount with
  | error e => simp [hc] at h
  | ok u =>
    obtain ⟨he, -, -, -, hb⟩ := checkCreate_eq_ok_iff.1 hc
    simp only [hc] at h
    obtain ⟨rfl, ha⟩ := commit_ok h
    exact ⟨_, _, .creation hq he hb, ha⟩

/-- A withdrawal that is committed is asked for by the owner of an unlocked stake, who has
signed. -/
theorem withdraw_read_ok {account requester : Bytes} {amount : Amount}
    (h : (withdraw db program signers account requester amount).value = (.ok record, db')) :
    requester ∈ signers ∧ ∃ a r, (Host.account? db account).value = some a ∧ a.owner = program ∧
      Record.decode? a.data = some r ∧ r.owner = requester ∧ r.isLocked = false ∧
      amount ≤ r.amount ∧ record = { r with amount := r.amount - amount } ∧
      (Host.apply db program signers [.update account amount 0 (some record.layout),
        .update requester 0 amount none]).value = (.ok (), db') := by
  unfold withdraw at h
  split at h
  · simp at h
  rename_i hsigned
  rw [Traced.value_bind] at h
  cases hf : (Host.account? db account).value with
  | none => simp [hf] at h
  | some a =>
    simp only [hf] at h
    cases hc : checkWithdraw program account requester amount a with
    | error e => simp [hc] at h
    | ok left =>
      simp only [hc] at h
      obtain ⟨ho, r, hr, hreq, hlock, hle, hleft⟩ := checkWithdraw_eq_ok_iff.1 hc
      obtain ⟨rfl, ha⟩ := commit_ok h
      exact ⟨not_not.1 hsigned, a, r, rfl, ho, hr, hreq, hlock, hle, hleft, ha⟩

theorem withdraw_eq_ok {account requester : Bytes} {amount : Amount} (hh : db.Healthy)
    (h : (withdraw db program signers account requester amount).value = (.ok record, db')) :
    requester ∈ signers ∧ ∃ a r, Host.held? db account = some a ∧ a.owner = program ∧
      Record.decode? a.data = some r ∧ r.owner = requester ∧ r.isLocked = false ∧
      amount ≤ r.amount ∧ record = { r with amount := r.amount - amount } ∧
      (Host.apply db program signers [.update account amount 0 (some record.layout),
        .update requester 0 amount none]).value = (.ok (), db') := by
  simpa only [Host.account?_value hh] using withdraw_read_ok h

theorem withdraw_ok {account requester : Bytes} {amount : Amount} {q : Request} (hh : db.Healthy)
    (hq : q.payment? = none)
    (h : (withdraw db program signers account requester amount).value = (.ok record, db')) :
    ∃ signers changes, Deal db program q changes record ∧
      (Host.apply db program signers changes).value = (.ok (), db') := by
  obtain ⟨-, a, r, hf, ho, hr, -, -, hle, rfl, ha⟩ := withdraw_eq_ok hh h
  exact ⟨_, _, .withdrawal hq hf ho hr (UInt64.le_iff_toNat_le.1 hle), ha⟩

/-- A request that is committed applies one of the two change sets. -/
theorem transact_ok {q : Request} (hh : db.Healthy)
    (h : (q.transact db program).value = (.ok record, db')) : ∃ signers changes,
      Deal db program q changes record ∧
        (Host.apply db program signers changes).value = (.ok (), db') := by
  cases q with
  | create staker account amount lockPeriod => exact create_ok rfl h
  | withdraw account requester amount => exact withdraw_ok hh rfl h
  | process signers staker account data =>
    rw [Request.transact, process_value] at h
    split at h
    · simp at h
    · rename_i hi
      exact create_ok (by simp [Request.payment?, hi]) h
    · rename_i hi
      exact withdraw_ok hh (by simp [Request.payment?, hi]) h

theorem create_refused {staker account : Bytes} {amount : Amount} {lockPeriod : Int64} :
    Spares db (create db program signers staker account amount lockPeriod).value := by
  unfold create
  split
  · exact .of_error _
  · exact commit_refused

theorem withdraw_refused {account requester : Bytes} {amount : Amount} :
    Spares db (withdraw db program signers account requester amount).value := by
  unfold withdraw
  split
  · exact .of_error _
  rw [Traced.value_bind]
  split
  · exact .of_error _
  split
  · exact .of_error _
  · exact commit_refused

theorem transact_refused {q : Request} : Spares db (q.transact db program).value := by
  cases q with
  | create staker account amount lockPeriod => exact create_refused
  | withdraw account requester amount => exact withdraw_refused
  | process signers staker account data =>
    rw [Request.transact, process_value]
    split
    · exact .of_error _
    · exact create_refused
    · exact withdraw_refused

theorem Request.healthy_after (hh : db.Healthy) (q : Request) : (q.after db program).Healthy := by
  unfold Request.after
  rcases h : (q.transact db program).value with ⟨_ | record, db'⟩
  · rwa [transact_refused h]
  · obtain ⟨signers, changes, -, ha⟩ := transact_ok hh h
    obtain ⟨accounts, happ⟩ := Host.apply_ok hh ha
    exact happ.healthy

theorem Ledger.healthy_step {factories : Factories κ} {l : Ledger κ}
    (hh : l.db.Healthy) (op : Op) : (step factories l op).db.Healthy := by
  cases op with
  | deposit key lamports => exact Host.healthy_deposited hh key lamports
  | serve q =>
    rw [step, serve_db]
    exact q.healthy_after hh

theorem Ledger.healthy_run {factories : Factories κ} {l : Ledger κ}
    (hh : l.db.Healthy) (ops : List Op) : (run factories l ops).db.Healthy := by
  induction ops generalizing l with
  | nil => exact hh
  | cons op ops ih => exact ih (healthy_step hh op)

end StakeQuorum.Stake
