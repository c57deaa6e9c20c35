import StakeQuorum.Proofs.Account.Exactness
import StakeQuorum.Proofs.Stake.Registries

/-! # Withdrawals in portions

An unlocked stake that is backed can be taken back in any portions. A portion is paid exactly when
what is left of the stake covers it, the last one leaves the rent behind, and nothing else changes
than the stake and the wallet of its owner.
-/

namespace StakeQuorum.Stake

open Host Store
open ValidatorSet (ClientFactory Steady)

variable {κ : Type} {db db' : Database} {program key : Bytes} {x : Amount}

/-- The account of a stake, its record, and the account of its owner. -/
structure Position where
  stake : Account
  record : Record
  wallet : Account

namespace Position

variable {p p' p'' : Position} {n m : Nat}

/-- The stake is unlocked and backed, and its owner has a wallet apart from it with enough room. -/
structure Withdrawable (db : Database) (program key : Bytes) (p : Position) : Prop where
  held : (account? db key).value = some p.stake
  owned : p.stake.owner = program
  decoded : Record.decode? p.stake.data = some p.record
  unlocked : p.record.lockedUntil ≤ 0
  backed : p.record.amount.toNat + surcharge.toNat ≤ p.stake.lamports.toNat
  wallet : (account? db p.record.owner).value = some p.wallet
  plain : p.wallet.data = []
  apart : p.record.owner ≠ key
  room : p.wallet.lamports.toNat + p.record.amount.toNat < UInt64.size

/-- An amount has gone from the stake to the wallet. -/
structure Pays (p p' : Position) (n : Nat) : Prop where
  record : p'.record = { p.record with amount := p'.record.amount }
  amount : p'.record.amount.toNat + n = p.record.amount.toNat
  stake : p'.stake.lamports.toNat + n = p.stake.lamports.toNat
  wallet : p'.wallet.lamports.toNat = p.wallet.lamports.toNat + n
  kind : p'.wallet.owner = p.wallet.owner ∧ p'.wallet.data = p.wallet.data

theorem Pays.refl (p : Position) : p.Pays p 0 := ⟨rfl, rfl, rfl, rfl, rfl, rfl⟩

theorem Pays.trans (h : p.Pays p' n) (h' : p'.Pays p'' m) : p.Pays p'' (n + m) where
  record := by rw [h'.record, h.record]
  amount := by have := h.amount; have := h'.amount; omega
  stake := by have := h.stake; have := h'.stake; omega
  wallet := by have := h.wallet; have := h'.wallet; omega
  kind := ⟨h'.kind.1.trans h.kind.1, h'.kind.2.trans h.kind.2⟩

theorem Pays.owner (h : p.Pays p' n) : p'.record.owner = p.record.owner := by rw [h.record]

end Position

open Position

variable {p : Position}

/-- What a withdrawal changes: the records of two accounts. -/
def SameBut (key owner : Bytes) (db db' : Database) : Prop :=
  ∀ k, k ≠ accountKey key → k ≠ accountKey owner → db'.contents.get? k = db.contents.get? k

/-! ### Single withdrawals -/

def Record.without (r : Record) (x : Amount) : Record := { r with amount := r.amount - x }

@[simp] theorem Record.owner_without (r : Record) (x : Amount) : (r.without x).owner = r.owner :=
  rfl

def portion (key : Bytes) (x : Amount) (record : Record) : List Change :=
  [.update key x 0 (some record.layout), .update record.owner 0 x none]

theorem withdraw_of_lt (h : p.Withdrawable db program key) (hx : p.record.amount < x) :
    (withdraw db program [p.record.owner] key p.record.owner x).value =
      (.error (.insufficient x p.record.amount), db) := by
  have hunlocked : p.record.isLocked = false := by simpa [Record.isLocked] using h.unlocked
  unfold withdraw
  rw [if_neg (by simp), Traced.value_bind, h.held]
  simp [checkWithdraw, h.owned, h.decoded, hunlocked, hx]

theorem withdraw_of_le (h : p.Withdrawable db program key) (hx : x ≤ p.record.amount) :
    (withdraw db program [p.record.owner] key p.record.owner x).value =
      match (Host.apply db program [p.record.owner] (portion key x (p.record.without x))).value with
      | (.error e, db') => (.error (.host e), db')
      | (.ok (), db') => (.ok (p.record.without x), db') := by
  have hunlocked : p.record.isLocked = false := by simpa [Record.isLocked] using h.unlocked
  have hcheck : checkWithdraw program key p.record.owner x p.stake = .ok (p.record.without x) :=
    checkWithdraw_eq_ok_iff.2 ⟨h.owned, p.record, h.decoded, rfl, hunlocked, hx, rfl⟩
  unfold withdraw
  rw [if_neg (by simp), Traced.value_bind, h.held]
  simp only [hcheck]
  exact commit_value

theorem permitted_portion (hh : db.Healthy) (hprogram : program ≠ []) (hkey : key ≠ [])
    (h : p.Withdrawable db program key) (hx : x ≤ p.record.amount) :
    Permitted db program [p.record.owner] (portion key x (p.record.without x)) := by
  have hheld := (account?_value hh key).symm.trans h.held
  have hwallet := (account?_value hh p.record.owner).symm.trans h.wallet
  have hext := Record.isExternal_of_decode? h.decoded
  have howner : p.record.owner ≠ [] := Record.ne_nil_of_isExternal hext
  have hrent : Account.rentFor (p.record.without x).layout = surcharge := rentFor_layout hext
  have hbacked := h.backed
  have hroom := h.room
  have hle := UInt64.le_iff_toNat_le.1 hx
  have hless : (p.stake.lamports - x).toNat + x.toNat =
      p.stake.lamports.toNat + (0 : Amount).toNat :=
    Amount.toNat_sub_add_of_le (UInt64.le_iff_toNat_le.2 (by omega))
  have hmore : (p.wallet.lamports + x).toNat + (0 : Amount).toNat =
      p.wallet.lamports.toNat + x.toNat := Amount.toNat_add_of_lt (by omega)
  constructor
  · exact hprogram
  · simp only [portion, List.forall_mem_cons, List.not_mem_nil, false_implies, implies_true,
      and_true]
    constructor
    · have hexempt : surcharge ≤ p.stake.lamports - x := by
        rw [UInt64.toNat_zero] at hless
        rw [UInt64.le_iff_toNat_le]
        omega
      exact ⟨_, .update hkey hheld (fun _ => .inl h.owned) (by omega) (fun _ => h.owned) hless
        (.inr (.inr (hrent.trans_le hexempt)))⟩
    · exact ⟨_, .update howner hwallet (by simp) (by simp) (by simp) hmore (.inl h.plain)⟩
  · simpa [portion, Change.key] using Ne.symm h.apart
  · simp [portion, Change.taken, Change.given]
  · simpa [portion, Change.taken] using x.toNat_lt

theorem exists_withdraw (hh : db.Healthy) (hprogram : program ≠ []) (hkey : key ≠ [])
    (h : p.Withdrawable db program key) (hx : x ≤ p.record.amount) :
    ∃ p' db', (withdraw db program [p.record.owner] key p.record.owner x).value =
        (.ok p'.record, db') ∧ p'.Withdrawable db' program key ∧
      p.Pays p' x.toNat ∧ SameBut key p.record.owner db db' := by
  have hpermitted := permitted_portion hh hprogram hkey h hx
  obtain ⟨⟨⟩, db', happly⟩ := fst_isOk_iff_exists.1 ((apply_isOk_iff hh).2 hpermitted)
  have hext : Address.isExternal (p.record.without x).owner = true :=
    (Record.isExternal_of_decode? h.decoded : Address.isExternal p.record.owner = true)
  have hsize : Record.size ≤ CompactSize.maxSize := by decide
  have hfits : ∀ c ∈ portion key x (p.record.without x), c.Fits := by
    simp [portion, Change.Fits, Record.length_layout hext, hsize]
  have hdone := carriedOut_of_apply hh hfits happly
  obtain ⟨a, left, ha, hlow, hl, ha'⟩ := hdone.updated key x 0 _ List.mem_cons_self
  obtain ⟨w, more, hw, -, hm, hw'⟩ := hdone.updated p.record.owner 0 x none
    (List.mem_cons_of_mem _ List.mem_cons_self)
  obtain rfl := Option.some.inj (h.held.symm.trans ha)
  obtain rfl := Option.some.inj (h.wallet.symm.trans hw)
  rw [UInt64.toNat_zero] at hl hm
  have hle := UInt64.le_iff_toNat_le.1 hx
  have hamount : (p.record.without x).amount.toNat = p.record.amount.toNat - x.toNat :=
    UInt64.toNat_sub_of_le _ _ hx
  have hbacked := h.backed
  have hroom := h.room
  refine ⟨{ stake := { p.stake with lamports := left, data := (p.record.without x).layout }
            record := p.record.without x
            wallet := { p.wallet with lamports := more } }, db', ?_, ?_, ?_, ?_⟩
  · rw [withdraw_of_le h hx, happly]
  · exact {
      held := ha'
      owned := h.owned
      decoded := Record.decode?_layout hext
      unlocked := h.unlocked
      backed := by simp only [hamount]; omega
      wallet := hw'
      plain := h.plain
      apart := h.apart
      room := by simp only [hamount]; omega }
  · exact {
      record := rfl
      amount := by simp only [hamount]; omega
      stake := by simp only; omega
      wallet := by simp only; omega
      kind := ⟨rfl, rfl⟩ }
  · intro k hk hk'
    refine hdone.kept k ?_
    simp only [portion, List.forall_mem_cons, List.not_mem_nil, false_implies, implies_true,
      and_true]
    exact ⟨fun h => hk h.symm, fun h => hk' h.symm⟩

/-! ### Sequences of withdrawals -/

namespace Ledger

variable {factories : Factories κ} {l : Ledger κ} {owner : Bytes}

def portions (key owner : Bytes) (xs : List Amount) : List Op :=
  xs.map fun x => .serve (.withdraw key owner x)

/-- What withdrawals pay out: the amounts of those that are not refused. -/
def paidOut (factories : Factories κ) (key owner : Bytes) : Ledger κ → List Amount → Nat
  | _, [] => 0
  | l, x :: xs =>
    let served := (withdrawStake factories l key owner x).value
    (match served.1 with
      | .refused _ => 0
      | .done _ | .raised _ => x.toNat) + paidOut factories key owner served.2 xs

theorem withdrawStake_of_lt (factories : Factories κ) (h : p.Withdrawable l.db l.program key)
    (hx : p.record.amount < x) :
    (withdrawStake factories l key p.record.owner x).value =
      (.refused (.insufficient x p.record.amount), l) := by
  have hserve := serve_value factories l (.withdraw key p.record.owner x)
  simp only [Request.transact, withdraw_of_lt h hx] at hserve
  exact hserve

theorem withdrawStake_of_le (factories : Factories κ) (hh : l.db.Healthy)
    (hprogram : l.program ≠ []) (hkey : key ≠ []) (h : p.Withdrawable l.db l.program key)
    (hx : x ≤ p.record.amount) :
    let served := (withdrawStake factories l key p.record.owner x).value
    ∃ p', p'.Withdrawable served.2.db l.program key ∧ p.Pays p' x.toNat ∧
      SameBut key p.record.owner l.db served.2.db ∧
      ((∃ f, served.1 = .raised f) ∨ served.1 = .done p'.record) := by
  intro served
  obtain ⟨p', db', hw, hp', hpays, hsame⟩ := exists_withdraw hh hprogram hkey h hx
  have hserved : served = (announce factories l key (.ok p'.record, db')).value := by
    have hserve := serve_value factories l (.withdraw key p.record.owner x)
    simp only [Request.transact, hw] at hserve
    exact hserve
  obtain ⟨htold, hends⟩ := announce_told factories l key p'.record db'
  rw [← hserved] at htold hends
  have hdb : served.2.db = db' := htold.db
  exact ⟨p', hdb ▸ hp', hpays, hdb ▸ hsame, hends.imp_right And.left⟩

theorem run_portions (factories : Factories κ) (hh : l.db.Healthy) (hprogram : l.program ≠ [])
    (hkey : key ≠ []) (h : p.Withdrawable l.db l.program key) (howner : p.record.owner = owner)
    (xs : List Amount) :
    ∃ p', p'.Withdrawable (run factories l (portions key owner xs)).db l.program key ∧
      p.Pays p' (paidOut factories key owner l xs) ∧
      SameBut key owner l.db (run factories l (portions key owner xs)).db := by
  subst howner
  induction xs generalizing l p with
  | nil => exact ⟨p, h, .refl p, fun _ _ _ => rfl⟩
  | cons x xs ih =>
    let served := (withdrawStake factories l key p.record.owner x).value
    have hprogram' : served.2.program = l.program :=
      serve_program factories l (.withdraw key p.record.owner x)
    by_cases hx : x ≤ p.record.amount
    · obtain ⟨p₁, hp₁, hpays, hsame, hends⟩ := withdrawStake_of_le factories hh hprogram hkey h hx
      have hh' : served.2.db.Healthy := healthy_step hh (.serve (.withdraw key p.record.owner x))
      obtain ⟨p₂, hp₂, hpays₂, hsame₂⟩ := ih (l := served.2) (p := p₁) hh' (hprogram' ▸ hprogram)
        (hprogram' ▸ hp₁)
      rw [hpays.owner] at hp₂ hpays₂ hsame₂
      have hpaid : paidOut factories key p.record.owner l (x :: xs) =
          x.toNat + paidOut factories key p.record.owner served.2 xs := by
        rw [paidOut]
        rcases hends with ⟨f, hends⟩ | hends <;> rw [hends]
      refine ⟨p₂, hprogram' ▸ hp₂, hpaid ▸ hpays.trans hpays₂, ?_⟩
      intro k hk hk'
      exact (hsame₂ k hk hk').trans (hsame k hk hk')
    · have hrefused := withdrawStake_of_lt factories h (UInt64.not_le.1 hx)
      have hrun : run factories l (portions key p.record.owner (x :: xs)) =
          run factories l (portions key p.record.owner xs) :=
        congrArg (fun s => run factories s.2 (portions key p.record.owner xs)) hrefused
      have hpaid : paidOut factories key p.record.owner l (x :: xs) =
          paidOut factories key p.record.owner l xs := by
        rw [paidOut, hrefused, Nat.zero_add]
      rw [hrun, hpaid]
      exact ih hh hprogram h

/-- After any withdrawals the stake has lost, and the wallet has gained, what was paid out, and
nothing else has changed. The next one is paid exactly when what is left covers it, and otherwise
refused without an effect. Only a listener that raises a failure can keep it from reporting. -/
theorem withdrawals_in_portions (factories : Factories κ) (hh : l.db.Healthy)
    (hprogram : l.program ≠ []) (hkey : key ≠ []) (h : p.Withdrawable l.db l.program key)
    (xs : List Amount) :
    let now := run factories l (portions key p.record.owner xs)
    let paid := paidOut factories key p.record.owner l xs
    ∃ p', p'.Withdrawable now.db l.program key ∧ p.Pays p' paid ∧
      SameBut key p.record.owner l.db now.db ∧
      ∀ x, let served := (withdrawStake factories now key p.record.owner x).value
        (x.toNat ≤ p.record.amount.toNat - paid →
          (∃ f, served.1 = .raised f) ∨ ∃ record, served.1 = .done record) ∧
        (p.record.amount.toNat - paid < x.toNat →
          ∃ e : StakeError, e.code = .insufficientFunds ∧ served = (.refused e, now)) ∧
        (l.Quiet → factories.Steady → ∀ f, served.1 ≠ .raised f) := by
  intro now paid
  obtain ⟨p', hp', hpays, hsame⟩ := run_portions factories hh hprogram hkey h rfl xs
  have hhnow : now.db.Healthy := healthy_run hh _
  have hsameprogram : now.program = l.program := run_program factories l _
  have hleft := hpays.amount
  refine ⟨p', hp', hpays, hsame, fun x => ⟨?_, ?_, ?_⟩⟩
  · intro hx
    have hle : x ≤ p'.record.amount := by
      rw [UInt64.le_iff_toNat_le]
      omega
    obtain ⟨p'', -, -, -, hends⟩ := withdrawStake_of_le factories hhnow
      (hsameprogram ▸ hprogram) hkey (hsameprogram ▸ hp') hle
    rw [hpays.owner] at hends
    exact hends.imp_right fun hdone => ⟨p''.record, hdone⟩
  · intro hx
    have hlt : p'.record.amount < x := by
      rw [UInt64.lt_iff_toNat_lt]
      omega
    have hrefused := withdrawStake_of_lt factories (hsameprogram ▸ hp') hlt
    rw [hpays.owner] at hrefused
    exact ⟨_, rfl, hrefused⟩
  · intro hq hf f hraised
    exact (hq.run _).not_raises hf (.serve (.withdraw key p.record.owner x)) ⟨f, hraised⟩

/-- A stake is taken back in three portions, one of them empty, with a refused one between them. -/
theorem withdrawals_in_portions_emptied :
    let factories : Factories Unit := fun _ _ => .ok none
    let l := run factories ({} : Ledger Unit)
      [.deposit staker 100000000000, .serve (.create staker "stake" 12000000000 0)]
    let xs : List Amount := [5000000000, 8000000000, 0, 7000000000]
    let now := run factories l (portions "stake" staker xs)
    let record := newRecord staker 12000000000 0
    let p : Position := {
      stake := {
        key := "stake", lamports := 12001322400, owner := l.program, data := record.layout }
      record
      wallet := {
        key := staker, lamports := 87998677600, owner := Account.systemProgram, data := [] } }
    l.db.Healthy ∧ l.program ≠ [] ∧ p.Withdrawable l.db l.program "stake" ∧
      paidOut factories "stake" staker l xs = 12000000000 ∧
      ∃ p', p'.Withdrawable now.db l.program "stake" ∧ p.Pays p' 12000000000 ∧
        SameBut "stake" staker l.db now.db ∧
        ∃ e : StakeError, e.code = .insufficientFunds ∧
          (withdrawStake factories now "stake" staker 1).value = (.refused e, now) := by
  intro factories l xs now record p
  have hh : l.db.Healthy := healthy_run (l := {}) rfl _
  have hprogram : l.program ≠ [] := by decide +kernel
  have hp : p.Withdrawable l.db l.program "stake" := by
    constructor <;> decide +kernel
  have hpaid : paidOut factories "stake" staker l xs = 12000000000 := by decide +kernel
  obtain ⟨p', hp', hpays, hsame, hnext⟩ :=
    withdrawals_in_portions factories hh hprogram (by decide) hp xs
  have hempty : p.record.amount.toNat - paidOut factories "stake" staker l xs <
      (1 : Amount).toNat := by
    rw [hpaid]
    decide
  exact ⟨hh, hprogram, hp, hpaid, p', hp', hpaid ▸ hpays, hsame, (hnext 1).2.1 hempty⟩

end Ledger

end StakeQuorum.Stake
