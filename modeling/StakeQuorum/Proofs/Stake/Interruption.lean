import StakeQuorum.Proofs.Account.Exactness
import StakeQuorum.Proofs.Stake.Instructions
import StakeQuorum.Proofs.Stake.Life

/-! # Operations that are interrupted

An operation that is refused leaves the ledger as it was. What is committed stays committed when a
listener raises a failure, so that an operation which is not done has changed the database exactly
when it moves something and a listener fails in the state that it commits.
-/

namespace StakeQuorum.Stake

open Host Store
variable {κ : Type} {db db' : Database} {program : Bytes} {signers : List Bytes} {q : Request}
  {record : Record}

/-! ### Failing databases -/

theorem healthy_of_create_ok {staker account : Bytes} {amount : Amount} {lockPeriod : Int64}
    (hdb : db.Faithful)
    (h : (create db program signers staker account amount lockPeriod).value =
      (.ok record, db')) : db.Healthy := by
  obtain ⟨_, _, hdeal, ha⟩ := create_ok (q := .create staker account amount lockPeriod) rfl h
  cases hdeal <;> exact healthy_of_update_ok hdb ha

theorem healthy_of_withdraw_ok {account requester : Bytes} {amount : Amount} (hdb : db.Faithful)
    (h : (withdraw db program signers account requester amount).value = (.ok record, db')) :
    db.Healthy := by
  obtain ⟨-, a, r, -, -, -, -, -, -, -, ha⟩ := withdraw_read_ok h
  exact healthy_of_update_ok hdb ha

/-- A failing database commits nothing. -/
theorem healthy_of_transact_ok (hdb : db.Faithful)
    (h : (q.transact db program).value = (.ok record, db')) : db.Healthy := by
  cases q with
  | create staker account amount lockPeriod => exact healthy_of_create_ok hdb h
  | withdraw account requester amount => exact healthy_of_withdraw_ok hdb h
  | process signers staker account data =>
    rw [Request.transact, process_value] at h
    split at h
    · simp at h
    · exact healthy_of_create_ok hdb h
    · exact healthy_of_withdraw_ok hdb h

/-! ### What is committed -/

/-- A request asks for something: a stake, or a withdrawal of more than nothing. -/
def Request.Moves (q : Request) : Prop := ∀ w ∈ q.withdrawal?, w.amount ≠ 0

theorem ne_of_creation (hh : db.Healthy) (hw : q.withdrawal? = none)
    (h : (q.transact db program).value = (.ok record, db')) : db' ≠ db := by
  obtain ⟨signers, staker, account, total, data, ha⟩ := transact_of_not_withdrawal hh hw h
  obtain ⟨accounts, happ⟩ := apply_ok hh ha
  obtain ⟨a, hm, he⟩ := exists_of_forall₂_left happ.effects
    (List.mem_cons_of_mem _ List.mem_cons_self)
  have hstored := happ.stored a hm
  cases he with
  | create _ _ fresh =>
    intro heq
    rw [heq] at hstored
    exact absurd (hstored.symm.trans fresh) (by simp)

/-- An update that moves nothing and keeps the data makes the account that is stored already. -/
theorem record?_of_idle {caller key : Bytes} {newData : Option Bytes} {a : Account}
    (he : Effect db caller signers (.update key 0 0 newData) a)
    (hdata : ∀ b, held? db key = some b → newData.getD b.data = b.data) :
    record? db a.key = some a.encode := by
  cases he with
  | @update _ _ _ lamports _ b _ found _ _ _ balance =>
    obtain rfl : lamports = b.lamports := UInt64.toNat_inj.1 (by simpa using balance)
    rw [hdata b found]
    obtain rfl := (held?_eq_some found).1
    exact record?_of_held? found

theorem eq_of_emptyWithdrawal {w : Withdrawal} (hh : db.Healthy)
    (h : (withdraw db program w.signers w.account w.requester w.amount).value =
      (.ok record, db')) (hw : w.amount = 0) : db' = db := by
  obtain ⟨-, a, r, hf, -, hr, -, -, -, hleft, ha⟩ := withdraw_eq_ok hh h
  have hlayout : record.layout = a.data := by
    rw [(Record.eq_layout_of_decode? hr).1, hleft, hw]
    simp
  rw [hw, hlayout] at ha
  obtain ⟨accounts, happ⟩ := apply_ok hh ha
  refine happ.eq_self hh ?_
  intro b hm
  obtain ⟨c, hc, he⟩ := exists_of_forall₂_right happ.effects hm
  simp only [List.mem_cons, List.not_mem_nil, or_false] at hc
  rcases hc with rfl | rfl
  · refine record?_of_idle he ?_
    intro a' hf'
    obtain rfl := Option.some.inj (hf.symm.trans hf')
    rfl
  · exact record?_of_idle he fun _ _ => rfl

theorem ne_iff_moves (hh : db.Healthy) (h : (q.transact db program).value = (.ok record, db')) :
    db' ≠ db ↔ q.Moves := by
  cases hw : q.withdrawal? with
  | none => simp [Request.Moves, hw, ne_of_creation hh hw h]
  | some w =>
    rw [transact_of_withdrawal hw] at h
    simp only [Request.Moves, hw, Option.mem_some, forall_eq']
    refine not_congr ⟨?_, eq_of_emptyWithdrawal hh h⟩
    intro heq
    obtain ⟨-, a, r, hf, ho, hr, -⟩ := withdraw_eq_ok hh h
    have hs : staked? db program w.account = some r := staked?_eq_some_iff.2 ⟨a, hf, ho, hr⟩
    obtain ⟨hpaid, hs'⟩ := paid_of_withdraw hh hs h
    rw [heq] at hs'
    obtain rfl : r = record := Option.some.inj (hs.symm.trans hs')
    have hdrop := hpaid.drop
    rw [← UInt64.toNat_inj, UInt64.toNat_zero]
    omega

namespace Ledger

variable {factories : Factories κ} {l : Ledger κ}

/-- A request is committed, and a listener fails when it is told of it. -/
def Interrupts (factories : Factories κ) (l : Ledger κ) (q : Request) : Prop :=
  ∃ record db, (q.transact l.db l.program).value = (.ok record, db) ∧
    ∃ e ∈ l.listeners, Fails factories { l with db } e

/-- An operation that is refused has no effect, and one that is left by a failure is interrupted.
One that is not done leaves the database as it was unless it is interrupted and moves something. -/
theorem unchanged_iff_not_interrupted (factories : Factories κ) (hdb : l.db.Faithful)
    (q : Request) :
    let served := (serve factories l q).value
    (∀ e, served.1 = .refused e → served.2 = l) ∧
    ((∃ f, served.1 = .raised f) ↔ Interrupts factories l q) ∧
    (((∀ record, served.1 ≠ .done record) → served.2.db = l.db) ↔
      ¬ (Interrupts factories l q ∧ q.Moves)) := by
  intro served
  rcases h : (q.transact l.db l.program).value with ⟨e | record, db⟩
  · have hserved : served = (.refused e, l) := (serve_of_error h).1
    simp [hserved, Interrupts, h]
  · have hserved : served = (announce factories l q.account (.ok record, db)).value := by
      rw [← h]
      exact serve_value factories l q
    obtain ⟨htold, hends⟩ := announce_told factories l q.account record db
    have hraised := announce_raised_iff factories l q.account record db
    rw [← hserved] at htold hends hraised
    have hdb' : served.2.db = db := htold.db
    have hinterrupts : Interrupts factories l q ↔ ∃ f, served.1 = .raised f := by
      rw [hraised, Interrupts, h]
      simp
    have hfailed : (∀ record, served.1 ≠ .done record) ↔ ∃ f, served.1 = .raised f := by
      rcases hends with ⟨f, hf⟩ | ⟨hdone, -⟩
      · simp [hf]
      · simp [hdone]
    refine ⟨?_, hinterrupts.symm, ?_⟩
    · rintro e he
      rcases hends with ⟨f, hf⟩ | ⟨hdone, -⟩
      · simp [hf] at he
      · simp [hdone] at he
    · rw [hfailed, hdb', hinterrupts, ← ne_iff_moves (healthy_of_transact_ok hdb h) h, not_and,
        not_ne_iff]

def offline : Factories Unit := fun _ o => .error (.raised ("no transport for " ++ o))

def watched : Ledger Unit :=
  (openRegistry offline { db := deposited {} staker 100000000000 } 10000000000 true).value.2

/-- A stake that is too small is refused without an effect, and no listener can interrupt it. -/
theorem unchanged_by_smallStake :
    let q : Request := .create staker "stake" 1 0
    let served := (serve offline watched q).value
    watched.db.Faithful ∧ served.1 = .refused (.belowMinimum 1) ∧ served.2 = watched ∧
      ¬ Interrupts offline watched q := by
  intro q served
  have hdb : watched.db.Faithful := .healthy (by decide +kernel)
  have hserved : served.1 = .refused (.belowMinimum 1) := by rfl
  obtain ⟨hrefused, hraised, -⟩ := unchanged_iff_not_interrupted offline hdb q
  refine ⟨hdb, hserved, hrefused _ hserved, fun hi => ?_⟩
  obtain ⟨f, hf⟩ := hraised.2 hi
  exact absurd (hserved.symm.trans hf) (by simp)

/-- The first stake makes the registry ask for a client. The operation is left by what the factory
raises, and the stake is there. -/
theorem changed_by_interrupted_creation :
    let served := (createStake offline watched staker "stake" 12000000000 0).value
    watched.db.Healthy ∧ (∃ f, served.1 = .raised f) ∧
      (stake? watched.db watched.program "stake").value = none ∧
      (stake? served.2.db watched.program "stake").value =
        some (newRecord staker 12000000000 0) ∧ served.2.db ≠ watched.db := by
  intro served
  have hbefore : (stake? watched.db watched.program "stake").value = none := by decide +kernel
  have hafter : (stake? served.2.db watched.program "stake").value =
      some (newRecord staker 12000000000 0) := by decide +kernel
  refine ⟨by decide +kernel, ?_, hbefore, hafter, ?_⟩
  · have hraised : (match served.1 with | .raised _ => true | _ => false) = true := by
      decide +kernel
    cases hends : served.1 with
    | raised f => exact ⟨f, rfl⟩
    | done record => simp [hends] at hraised
    | refused e => simp [hends] at hraised
  · intro heq
    rw [heq, hbefore] at hafter
    exact absurd hafter (by simp)

end Ledger

end StakeQuorum.Stake
