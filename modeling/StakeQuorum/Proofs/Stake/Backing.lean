import StakeQuorum.Proofs.Runs
import StakeQuorum.Proofs.Stake.Listing
import StakeQuorum.Proofs.Stake.Requests

/-! # Stakes and the lamports behind them

A stake is backed while its account holds the amount of its record and the rent on top. Deposits
and withdrawals keep every stake backed. A new stake can be paid for by an account that is itself
a stake, and a run keeps all stakes backed exactly when no such account pays more than it can
spare.
-/

namespace StakeQuorum.Stake

open Host Store

variable {κ : Type} {db db' : Database} {program : Bytes} {q : Request}

/-- Every account of the program with a record holds the amount of the record and the rent. -/
def Backed (db : Database) (program : Bytes) : Prop :=
  ∀ key a r, (account? db key).value = some a → a.owner = program →
    Record.decode? a.data = some r → r.amount.toNat + surcharge.toNat ≤ a.lamports.toNat

/-- A new stake is paid for by an account of the program with a record, which holds less than the
amount of its record, its rent and the payment. -/
def Overdraws (db : Database) (program : Bytes) (q : Request) : Prop :=
  (q.transact db program).value.1.isOk ∧ ∃ e ∈ q.payment?, ∃ a ∈ (account? db e.1).value,
    a.owner = program ∧ ∃ r ∈ Record.decode? a.data,
      a.lamports.toNat < r.amount.toNat + surcharge.toNat + (e.2.toNat + surcharge.toNat)

instance (db : Database) (program : Bytes) (q : Request) : Decidable (Overdraws db program q) :=
  inferInstanceAs (Decidable (_ ∧ _))

theorem backed_iff (hh : db.Healthy) : Backed db program ↔
    ∀ key a r, StakeAt db program key a r →
      r.amount.toNat + surcharge.toNat ≤ a.lamports.toNat := by
  simp only [Backed, account?_value hh]
  constructor
  · intro h key a r hs
    exact h key a r hs.held hs.owned hs.decoded
  · intro h key a r hk ho hr
    exact h key a r ⟨hk, ho, hr⟩

theorem overdraws_iff (hh : db.Healthy) : Overdraws db program q ↔
    (∃ record db', (q.transact db program).value = (.ok record, db')) ∧ ∃ payer amount a r,
      q.payment? = some (payer, amount) ∧ StakeAt db program payer a r ∧
        a.lamports.toNat < r.amount.toNat + surcharge.toNat + (amount.toNat + surcharge.toNat) := by
  rw [Overdraws, fst_isOk_iff_exists]
  refine and_congr_right fun _ => ?_
  constructor
  · rintro ⟨⟨payer, amount⟩, he, a, ha, ho, r, hr, hl⟩
    rw [account?_value hh] at ha
    exact ⟨payer, amount, a, r, he, ⟨ha, ho, hr⟩, hl⟩
  · rintro ⟨payer, amount, a, r, he, ⟨ha, ho, hr⟩, hl⟩
    rw [← account?_value hh] at ha
    exact ⟨(payer, amount), he, a, ha, ho, r, hr, hl⟩

/-! ### Single operations -/

theorem Backed.deposited (hh : db.Healthy) (hb : Backed db program) (key : Bytes)
    (lamports : Amount) : Backed (Host.deposited db key lamports) program := by
  rw [backed_iff (healthy_deposited hh key lamports)]
  rw [backed_iff hh] at hb
  unfold Host.deposited
  rcases hd : (deposit db key lamports).value with ⟨_ | _, db'⟩
  · rwa [deposit_refused hd]
  · obtain ⟨a, hc, rfl⟩ := deposit_ok hh hd
    rintro k b r ⟨hk, ho, hr⟩
    rcases hc.held?_cases hk with hold | rfl
    · exact hb k b r ⟨hold, ho, hr⟩
    · cases hc with
      | wallet =>
        exact absurd (Record.decode?_nil.symm.trans hr) (by simp)
      | more found bounded =>
        have hold := hb _ _ _ ⟨found, ho, hr⟩
        rw [Amount.toNat_add_of_lt bounded]
        omega

/-- What a request does to a stake keeps it backed, unless the stake pays more than it can
spare. -/
theorem Deal.backed {changes : List Change} {record r : Record} {signers : List Bytes}
    {c : Change} {b : Account} (h : Deal db program q changes record) (hc : c ∈ changes)
    (he : Effect db program signers c b) (ho : b.owner = program)
    (hr : Record.decode? b.data = some r)
    (hb : ∀ key a r, StakeAt db program key a r →
      r.amount.toNat + surcharge.toNat ≤ a.lamports.toNat)
    (hn : ∀ payer amount a r, q.payment? = some (payer, amount) → StakeAt db program payer a r →
      r.amount.toNat + surcharge.toNat + (amount.toNat + surcharge.toNat) ≤ a.lamports.toNat) :
    r.amount.toNat + surcharge.toNat ≤ b.lamports.toNat := by
  cases h with
  | creation asked external bounded =>
    simp only [List.mem_cons, List.not_mem_nil, or_false] at hc
    rcases hc with rfl | rfl
    · cases he with
      | update _ found _ _ _ balance =>
        have hspare := hn _ _ _ _ asked ⟨found, ho, hr⟩
        rw [Amount.toNat_add_of_lt bounded, UInt64.toNat_zero] at balance
        simp only
        omega
    · cases he with
      | create =>
        rw [Record.decode?_layout external] at hr
        obtain rfl := Option.some.inj hr
        exact (Amount.toNat_add_of_lt bounded).ge
  | @withdrawal account requester amount a r' _ found owned staked covered =>
    have hext : Address.isExternal r'.owner = true := Record.isExternal_of_decode? staked
    simp only [List.mem_cons, List.not_mem_nil, or_false] at hc
    rcases hc with rfl | rfl
    · cases he with
      | @update _ _ _ _ _ a' _ found' _ _ _ balance =>
        obtain rfl : a' = a := Option.some.inj (found'.symm.trans found)
        have hold := hb _ _ _ ⟨found, owned, staked⟩
        rw [Option.getD_some,
          Record.decode?_layout (r := { r' with amount := r'.amount - amount }) hext] at hr
        obtain rfl := Option.some.inj hr
        have hsub := UInt64.toNat_sub_of_le _ _ (UInt64.le_iff_toNat_le.2 covered)
        simp only [hsub, UInt64.toNat_zero] at balance ⊢
        omega
    · cases he with
      | update _ found' _ _ _ balance =>
        have hold := hb _ _ _ ⟨found', ho, hr⟩
        rw [UInt64.toNat_zero] at balance
        simp only
        omega

theorem Backed.after (hh : db.Healthy) (hb : Backed db program) (hn : ¬ Overdraws db program q) :
    Backed (q.after db program) program := by
  rw [backed_iff (q.healthy_after hh)]
  rw [overdraws_iff hh, not_and] at hn
  unfold Request.after
  rcases ht : (q.transact db program).value with ⟨_ | record, db'⟩
  · rw [transact_refused ht]
    exact (backed_iff hh).1 hb
  · obtain ⟨signers, changes, hd, ha⟩ := transact_ok hh ht
    obtain ⟨accounts, happ⟩ := apply_ok hh ha
    have hspare := hn ⟨record, db', ht⟩
    rintro key b r ⟨hk, ho, hr⟩
    rcases happ.held?_cases hk with hold | ⟨c, hc, he, -⟩
    · exact (backed_iff hh).1 hb key b r ⟨hold, ho, hr⟩
    · refine hd.backed hc he ho hr ((backed_iff hh).1 hb) ?_
      intro payer amount a r hq hs
      exact Nat.not_lt.1 fun hl => hspare ⟨payer, amount, a, r, hq, hs, hl⟩

theorem not_backed_of_overdraws (hh : db.Healthy) (ho : Overdraws db program q) :
    ¬ Backed (q.after db program) program := by
  rw [backed_iff (q.healthy_after hh)]
  obtain ⟨⟨record, db', ht⟩, payer, amount, a, r, hq, hs, hl⟩ := (overdraws_iff hh).1 ho
  obtain ⟨signers, changes, hd, ha⟩ := transact_ok hh ht
  obtain ⟨accounts, happ⟩ := apply_ok hh ha
  intro hb
  simp only [Request.after, ht] at hb
  cases hd with
  | withdrawal asked => exact absurd (asked.symm.trans hq) (by simp)
  | creation asked external bounded =>
    obtain ⟨rfl, rfl⟩ := Prod.mk.inj (Option.some.inj (asked.symm.trans hq))
    obtain ⟨b, hm, he⟩ := exists_of_forall₂_left happ.effects List.mem_cons_self
    have hkey := he.key_eq
    cases he with
    | @update _ _ _ lamports _ a' _ found _ _ _ balance =>
      obtain rfl : a' = a := Option.some.inj (found.symm.trans hs.held)
      have hafter := happ.held? hm (held?_eq_some found).2
      have hlow := hb _ _ _ ⟨hafter, hs.owned, hs.decoded⟩
      rw [Amount.toNat_add_of_lt bounded, UInt64.toNat_zero] at balance
      simp only at hlow
      omega

/-! ### Runs -/

namespace Ledger

variable {factories : Factories κ} {l : Ledger κ}

/-- An operation makes a stake pay more than it can spare. -/
def Op.Overdraws (l : Ledger κ) : Op → Prop
  | .deposit .. => False
  | .serve q => Stake.Overdraws l.db l.program q

instance (l : Ledger κ) (op : Op) : Decidable (op.Overdraws l) :=
  match op with
  | .deposit .. => inferInstanceAs (Decidable False)
  | .serve q => inferInstanceAs (Decidable (Stake.Overdraws l.db l.program q))

theorem backed_step_iff (factories : Factories κ) (hh : l.db.Healthy)
    (hb : Backed l.db l.program) (op : Op) :
    Backed (step factories l op).db l.program ↔ ¬ op.Overdraws l := by
  cases op with
  | deposit key lamports =>
    simp only [Op.Overdraws, not_false_eq_true, iff_true]
    exact hb.deposited hh key lamports
  | serve q =>
    rw [step, serve_db, Op.Overdraws]
    constructor
    · intro hafter ho
      exact not_backed_of_overdraws hh ho hafter
    · exact hb.after hh

theorem backed_run_iff (hh : l.db.Healthy) (hb : Backed l.db l.program) (ops : List Op) :
    (∀ n, Backed (run factories l (ops.take n)).db l.program) ↔
      ∀ n (op : Op), ops[n]? = some op → ¬ op.Overdraws (run factories l (ops.take n)) := by
  have hinv (m : Ledger κ) (op : Op) (hm : m.db.Healthy ∧ m.program = l.program) :
      (step factories m op).db.Healthy ∧ (step factories m op).program = l.program :=
    ⟨healthy_step hm.1 op, (step_program factories m op).trans hm.2⟩
  have hstep (m : Ledger κ) (op : Op) (hm : m.db.Healthy ∧ m.program = l.program)
      (hb : Backed m.db l.program) :
      Backed (step factories m op).db l.program ↔ ¬ op.Overdraws m := by
    rw [← hm.2] at hb ⊢
    exact backed_step_iff factories hm.1 hb op
  exact forall_foldl_take_iff hinv hstep ⟨hh, rfl⟩ hb ops

/-- From an empty database on, all stakes stay backed exactly when no stake pays more for a new
one than it can spare. -/
theorem backed_iff_not_overdraws (hh : l.db.Healthy) (he : l.db.contents = {}) (ops : List Op) :
    (∀ n, Backed (run factories l (ops.take n)).db l.program) ↔
      ∀ n (op : Op), ops[n]? = some op → ¬ op.Overdraws (run factories l (ops.take n)) := by
  refine backed_run_iff hh ?_ ops
  rw [backed_iff hh]
  intro key a r hs
  have hnone : held? l.db key = none := by
    rw [held?, record?, he]
    rfl
  exact absurd (hnone.symm.trans hs.held) (by simp)

def wallet : Bytes := "DYw8jCTfwHNRJhhmFcbXvVDTqWMEVFBX6ZKUmG5CNSKK"

def stakeAccount : Bytes := "7xKXtg2CW87d97TXJSDpbD5jBkheTqA83TZRuJosgAsU"

def partialWithdrawal : List Op :=
  [.deposit wallet 100000000000, .serve (.create wallet stakeAccount 20000000000 0),
    .serve (.withdraw stakeAccount wallet 5000000000)]

theorem backed_partialWithdrawal : ({} : Ledger Unit).db.Healthy ∧
    ({} : Ledger Unit).db.contents = {} ∧
    ∀ n, Backed (run (fun _ _ => .ok none) ({} : Ledger Unit) (partialWithdrawal.take n)).db
      ({} : Ledger Unit).program := by
  have hh : ({} : Ledger Unit).db.Healthy := rfl
  refine ⟨hh, rfl, (backed_iff_not_overdraws hh rfl partialWithdrawal).2 ?_⟩
  intro n op hop
  rcases n with _ | _ | _ | n
  · obtain rfl := Option.some.inj hop
    decide
  · obtain rfl := Option.some.inj hop
    decide
  · obtain rfl := Option.some.inj hop
    decide
  · simp [partialWithdrawal] at hop

def pledgedTwice : List Op :=
  [.deposit wallet 100000000000, .serve (.create wallet stakeAccount 20000000000 3600),
    .serve (.create stakeAccount "second" 10000000000 0)]

theorem not_backed_pledgedTwice : ({} : Ledger Unit).db.Healthy ∧
    ({} : Ledger Unit).db.contents = {} ∧ ({} : Ledger Unit).program ≠ [] ∧
    ({} : Ledger Unit).program ≠ Account.systemProgram ∧
    ¬ Backed (run (fun _ _ => .ok none) ({} : Ledger Unit) pledgedTwice).db
      ({} : Ledger Unit).program := by
  refine ⟨rfl, rfl, by decide, by decide, ?_⟩
  intro hb
  have hlow := hb stakeAccount _ _ (by rfl) (by rfl) (by rfl)
  exact absurd hlow (by decide)

end Ledger

end StakeQuorum.Stake
