import StakeQuorum.Proofs.Stake.Registries

/-! # The life of a stake

A stake stays where it is, with its owner, its lock and its flag, whatever is done through the
ledger. Its amount goes down only when its owner, who has signed, withdraws from it while it is not
locked, and what is withdrawn arrives in the owner's account.
-/

namespace StakeQuorum.Stake

open Host Store

variable {κ : Type} {db db' : Database} {program key : Bytes} {q : Request} {r r' r'' : Record}

/-! ### Withdrawals -/

structure Withdrawal where
  signers : List Bytes
  account : Bytes
  requester : Bytes
  amount : Amount
  deriving DecidableEq, Repr

def Request.withdrawal? : Request → Option Withdrawal
  | create .. => none
  | withdraw account requester amount => some ⟨[requester], account, requester, amount⟩
  | process signers staker account data =>
    match Instruction.decode? data with
    | some (.withdraw amount) => some ⟨signers, account, staker, amount⟩
    | _ => none

theorem transact_of_withdrawal {w : Withdrawal} (hw : q.withdrawal? = some w) :
    (q.transact db program).value =
      (withdraw db program w.signers w.account w.requester w.amount).value := by
  cases q with
  | create => simp [Request.withdrawal?] at hw
  | withdraw account requester amount =>
    obtain rfl := Option.some.inj hw
    rfl
  | process signers staker account data =>
    rw [Request.transact, process_value]
    cases hi : Instruction.decode? data with
    | none => simp [Request.withdrawal?, hi] at hw
    | some i =>
      cases i with
      | createStake => simp [Request.withdrawal?, hi] at hw
      | withdraw amount =>
        simp only [Request.withdrawal?, hi, Option.some.injEq] at hw
        subst hw
        rfl

theorem transact_of_not_withdrawal (hh : db.Healthy) (hw : q.withdrawal? = none)
    (h : (q.transact db program).value = (.ok r, db')) :
    ∃ signers staker account total data,
      (Host.apply db program signers [.update staker total 0 none,
        .create account total program data]).value = (.ok (), db') := by
  obtain ⟨signers, changes, hd, ha⟩ := transact_ok hh h
  cases hd with
  | creation => exact ⟨_, _, _, _, _, ha⟩
  | withdrawal asked =>
    cases q with
    | create => simp [Request.payment?] at asked
    | withdraw => simp [Request.withdrawal?] at hw
    | process signers staker account data =>
      rw [Request.transact, process_value] at h
      cases hi : Instruction.decode? data with
      | none => simp [hi] at h
      | some i =>
        cases i with
        | createStake => simp [Request.payment?, hi] at asked
        | withdraw => simp [Request.withdrawal?, hi] at hw

/-! ### What a request leaves of a stake -/

theorem staked?_of_plain {caller : Bytes} {signers : List Bytes} {c : Change} {a : Account}
    (he : Effect db caller signers c a) (hr : record? db' a.key = some a.encode)
    (hplain : ∀ key debit credit data, c ≠ .update key debit credit (some data))
    (hs : staked? db program a.key = some r) : staked? db' program a.key = some r := by
  cases c with
  | create =>
    cases he with
    | create _ _ fresh => exact absurd (hs.symm.trans (staked?_of_fresh fresh)) (by simp)
  | update key debit credit newData =>
    cases newData with
    | some data => exact absurd rfl (hplain key debit credit data)
    | none => rw [staked?_of_update he hr, hs]

theorem staked?_of_applied {caller : Bytes} {signers : List Bytes} {changes : List Change}
    {accounts : List Account} (h : Applied db caller signers changes accounts db')
    (hplain : ∀ c ∈ changes, c.key = key → ∀ key debit credit data,
      c ≠ .update key debit credit (some data))
    (hs : staked? db program key = some r) : staked? db' program key = some r := by
  rcases h.record?_cases key with hr | ⟨c, hc, a, -, he, rfl, hr⟩
  · rw [staked?_of_record?_eq hr, hs]
  · exact staked?_of_plain he hr (hplain c hc he.key_eq.symm) hs

/-- A withdrawal is paid: the owner, who has signed, gets what leaves the unlocked stake. -/
structure Paid (db db' : Database) (w : Withdrawal) (r r' : Record) : Prop where
  owner : w.requester = r.owner
  signed : w.requester ∈ w.signers
  unlocked : r.lockedUntil ≤ 0
  left : r' = { r with amount := r.amount - w.amount }
  drop : r'.amount.toNat + w.amount.toNat = r.amount.toNat
  gain : ∃ a a', (account? db r.owner).value = some a ∧ (account? db' r.owner).value = some a' ∧
    a'.lamports.toNat = a.lamports.toNat + w.amount.toNat

theorem paid_of_withdraw {w : Withdrawal} (hh : db.Healthy)
    (hs : staked? db program w.account = some r)
    (h : (withdraw db program w.signers w.account w.requester w.amount).value =
      (.ok r', db')) :
    Paid db db' w r r' ∧ staked? db' program w.account = some r' := by
  obtain ⟨hsigned, a, r₁, hf, ho, hr, hreq, hlock, hle, hleft, ha⟩ := withdraw_eq_ok hh h
  obtain ⟨b, hb⟩ := staked?_eq_some_iff.1 hs
  obtain rfl : a = b := Option.some.inj (hf.symm.trans hb.held)
  obtain rfl : r₁ = r := Option.some.inj (hr.symm.trans hb.decoded)
  obtain ⟨accounts, happ⟩ := apply_ok hh ha
  have hext : Address.isExternal r'.owner = true := by
    rw [hleft]
    exact (Record.isExternal_of_decode? hr : Address.isExternal r₁.owner = true)
  have hsub := UInt64.toNat_sub_of_le _ _ hle
  refine ⟨⟨hreq.symm, hsigned, ?_, hleft, ?_, ?_⟩, ?_⟩
  · simpa [Record.isLocked] using hlock
  · rw [UInt64.le_iff_toNat_le] at hle
    rw [hleft, hsub]
    omega
  · obtain ⟨b, hm, he⟩ := exists_of_forall₂_left happ.effects
      (a := .update w.requester 0 w.amount none) (by simp)
    rw [account?_value hh, account?_value happ.healthy, hreq]
    cases he with
    | update _ found _ _ _ balance =>
      have hheld := happ.held? hm (held?_eq_some found).2
      rw [(held?_eq_some found).1] at hheld
      rw [UInt64.toNat_zero] at balance
      exact ⟨_, _, found, hheld, balance⟩
  · obtain ⟨b, hm, he⟩ := exists_of_forall₂_left happ.effects List.mem_cons_self
    cases he with
    | @update _ _ _ _ _ a' _ found =>
      have hfits := (held?_eq_some found).2
      have hsize : Record.size ≤ CompactSize.maxSize := by decide
      have hheld := happ.held? hm ⟨hfits.1, (Record.length_layout hext).trans_le hsize⟩
      obtain rfl : a' = a := Option.some.inj (found.symm.trans hf)
      rw [(held?_eq_some found).1] at hheld
      exact staked?_eq_some_iff.2 ⟨_, hheld, ho, Record.decode?_layout hext⟩

/-- What can become of a record. -/
structure Record.Becomes (r r' : Record) : Prop where
  owner : r'.owner = r.owner
  lockedUntil : r'.lockedUntil = r.lockedUntil
  active : r'.active = r.active
  amount_le : r'.amount ≤ r.amount
  locked : 0 < r.lockedUntil → r' = r

theorem Record.Becomes.refl (r : Record) : r.Becomes r :=
  ⟨rfl, rfl, rfl, UInt64.le_refl _, fun _ => rfl⟩

theorem Record.Becomes.trans (h : r.Becomes r') (h' : r'.Becomes r'') : r.Becomes r'' where
  owner := h'.owner.trans h.owner
  lockedUntil := h'.lockedUntil.trans h.lockedUntil
  active := h'.active.trans h.active
  amount_le := UInt64.le_trans h'.amount_le h.amount_le
  locked hl := (h'.locked (h.lockedUntil ▸ hl)).trans (h.locked hl)

theorem Paid.becomes {w : Withdrawal} (h : Paid db db' w r r') : r.Becomes r' := by
  have hdrop := h.drop
  obtain ⟨-, -, hunlocked, rfl, -, -⟩ := h
  refine ⟨rfl, rfl, rfl, ?_, fun hl => absurd hl (Int64.not_lt.2 hunlocked)⟩
  rw [UInt64.le_iff_toNat_le]
  omega

/-! ### Runs -/

namespace Ledger

variable {factories : Factories κ} {l : Ledger κ}

/-- An operation is a withdrawal from a key which the program commits. -/
def Op.Withdraws (l : Ledger κ) (key : Bytes) (w : Withdrawal) : Op → Prop
  | .deposit .. => False
  | .serve q => q.withdrawal? = some w ∧ w.account = key ∧
      (q.transact l.db l.program).value.1.isOk

theorem staked?_step (factories : Factories κ) (hh : l.db.Healthy)
    (hs : staked? l.db l.program key = some r) (op : Op) :
    ∃ r', staked? (step factories l op).db l.program key = some r' ∧
      (∀ w, op.Withdraws l key w → Paid l.db (step factories l op).db w r r') ∧
      ((∀ w, ¬ op.Withdraws l key w) → r' = r) := by
  cases op with
  | deposit key' lamports =>
    exact ⟨r, (staked?_deposited hh key' lamports l.program key).trans hs, fun w hw => hw.elim,
      fun _ => rfl⟩
  | serve q =>
    rw [step, serve_db, Request.after]
    rcases ht : (q.transact l.db l.program).value with ⟨_ | left, db'⟩
    · rw [transact_refused ht]
      refine ⟨r, hs, ?_, fun _ => rfl⟩
      rintro w ⟨-, -, hok⟩
      simp [ht, Except.isOk, Except.toBool] at hok
    · cases hw : q.withdrawal? with
      | none =>
        obtain ⟨signers, staker, account, total, data, ha⟩ := transact_of_not_withdrawal hh hw ht
        obtain ⟨accounts, happ⟩ := apply_ok hh ha
        refine ⟨r, staked?_of_applied happ (by simp) hs, ?_, fun _ => rfl⟩
        rintro w ⟨hw', -⟩
        simp [hw] at hw'
      | some w =>
        rw [transact_of_withdrawal hw] at ht
        by_cases hk : w.account = key
        · obtain ⟨hpaid, hs'⟩ := paid_of_withdraw hh (hk ▸ hs) ht
          refine ⟨left, hk ▸ hs', ?_, ?_⟩
          · rintro w' ⟨hw', -⟩
            obtain rfl := Option.some.inj (hw.symm.trans hw')
            exact hpaid
          · intro hnone
            refine absurd ⟨hw, hk, ?_⟩ (hnone w)
            rw [transact_of_withdrawal hw, ht]
            rfl
        · obtain ⟨-, a, r₁, -, -, -, -, -, -, -, ha⟩ := withdraw_eq_ok hh ht
          obtain ⟨accounts, happ⟩ := apply_ok hh ha
          refine ⟨r, staked?_of_applied happ (by simp [Change.key, hk]) hs, ?_, fun _ => rfl⟩
          rintro w' ⟨hw', hk', -⟩
          obtain rfl := Option.some.inj (hw.symm.trans hw')
          exact absurd hk' hk

theorem staked?_becomes (factories : Factories κ) (hh : l.db.Healthy)
    (hs : staked? l.db l.program key = some r) (op : Op) :
    ∃ r', staked? (step factories l op).db l.program key = some r' ∧ r.Becomes r' := by
  obtain ⟨r', hs', hpaid, hkept⟩ := staked?_step factories hh hs op
  refine ⟨r', hs', ?_⟩
  by_cases hw : ∃ w, op.Withdraws l key w
  · obtain ⟨w, hw⟩ := hw
    exact (hpaid w hw).becomes
  · obtain rfl := hkept (not_exists.1 hw)
    exact .refl r'

theorem staked?_run (factories : Factories κ) (hh : l.db.Healthy)
    (hs : staked? l.db l.program key = some r) (ops : List Op) :
    ∃ r', staked? (run factories l ops).db l.program key = some r' ∧ r.Becomes r' := by
  induction ops generalizing l r with
  | nil => exact ⟨r, hs, .refl r⟩
  | cons op ops ih =>
    obtain ⟨r₁, hs₁, hb₁⟩ := staked?_becomes factories hh hs op
    rw [← step_program factories l op] at hs₁
    obtain ⟨r₂, hs₂, hb₂⟩ := ih (healthy_step hh op) hs₁
    rw [step_program] at hs₂
    exact ⟨r₂, hs₂, hb₁.trans hb₂⟩

/-- A withdrawal reports the new record unless a listener raises a failure. -/
theorem serve_of_withdraws {w : Withdrawal} (hh : l.db.Healthy)
    (hs : staked? l.db l.program key = some r) (hw : (Op.serve q).Withdraws l key w)
    (hn : ¬ (Op.serve q).Raises factories l) :
    ∃ r', staked? (step factories l (.serve q)).db l.program key = some r' ∧
      (serve factories l q).value.1 = .done r' := by
  obtain ⟨hask, rfl, hok⟩ := hw
  obtain ⟨r', db', ht⟩ := fst_isOk_iff_exists.1 hok
  have hdb : (step factories l (.serve q)).db = db' := by
    rw [step, serve_db, Request.after, ht]
  have hdone : (serve factories l q).value.1 = .done r' := by
    rw [Op.Raises, serve_value, ht] at hn
    rw [serve_value, ht]
    obtain ⟨-, hraised | ⟨hdone, -⟩⟩ := announce_told factories l q.account r' db'
    · exact absurd hraised hn
    · exact hdone
  rw [transact_of_withdrawal hask] at ht
  exact ⟨r', hdb ▸ (paid_of_withdraw hh hs ht).2, hdone⟩

/-- A stake outlives every run with its owner, lock and flag. From one operation to the next its
record is the same, unless the operation is a withdrawal from it, which is paid to the owner and
reports the new record. Only a listener that raises a failure can keep it from reporting. -/
theorem stake_lives (factories : Factories κ) (hh : l.db.Healthy)
    (hs : (stake? l.db l.program key).value = some r) (ops : List Op) :
    let now := run factories l ops
    ∃ r', (stake? now.db l.program key).value = some r' ∧ r.Becomes r' ∧
      ∀ op, let next := step factories now op
        ∃ r'', (stake? next.db l.program key).value = some r'' ∧
          (∀ w, op.Withdraws now key w → Paid now.db next.db w r' r'') ∧
          ((∀ w, ¬ op.Withdraws now key w) → r'' = r') ∧
          (∀ q w, op = .serve q → op.Withdraws now key w → ¬ op.Raises factories now →
            (serve factories now q).value.1 = .done r'') ∧
          (l.Quiet → factories.Steady → ¬ op.Raises factories now) := by
  intro now
  have hhnow : now.db.Healthy := healthy_run hh ops
  have hprogram : now.program = l.program := run_program factories l ops
  rw [stake?_value hh] at hs
  obtain ⟨r', hs', hb⟩ := staked?_run factories hh hs ops
  refine ⟨r', (stake?_value hhnow _ _).trans hs', hb, ?_⟩
  intro op next
  rw [← hprogram] at hs'
  obtain ⟨r'', hs'', hpaid, hkept⟩ := staked?_step factories hhnow hs' op
  rw [hprogram] at hs''
  refine ⟨r'', (stake?_value (healthy_step hhnow op) _ _).trans hs'', hpaid, hkept, ?_, ?_⟩
  · rintro q w rfl hw hn
    obtain ⟨r₁, hs₁, hdone⟩ := serve_of_withdraws hhnow hs' hw hn
    obtain rfl : r₁ = r'' := Option.some.inj ((hprogram ▸ hs₁).symm.trans hs'')
    exact hdone
  · intro hq hf
    exact (hq.run ops).not_raises hf op

/-- A stake is made and a part of it is taken back. -/
theorem stake_lives_partlyWithdrawn :
    let factories : Factories Unit := fun _ _ => .ok none
    let l := run factories ({} : Ledger Unit)
      [.deposit staker 100000000000, .serve (.create staker "stake" 12000000000 0)]
    let next := step factories l (.serve (.withdraw "stake" staker 5000000000))
    let r := newRecord staker 12000000000 0
    l.db.Healthy ∧ (stake? l.db l.program "stake").value = some r ∧
    ∃ r', (stake? next.db l.program "stake").value = some r' ∧
      Paid l.db next.db ⟨[staker], "stake", staker, 5000000000⟩ r r' := by
  intro factories l next r
  have hh : l.db.Healthy := healthy_run (l := {}) rfl _
  have hs : (stake? l.db l.program "stake").value = some r := by decide +kernel
  obtain ⟨r₀, hs₀, -, hnext⟩ := stake_lives factories hh hs []
  obtain rfl : r = r₀ := Option.some.inj (hs.symm.trans hs₀)
  obtain ⟨r', hs', hpaid, -⟩ := hnext (.serve (.withdraw "stake" staker 5000000000))
  exact ⟨hh, hs, r', hs', hpaid _ ⟨rfl, rfl, by decide +kernel⟩⟩

end Ledger

end StakeQuorum.Stake
