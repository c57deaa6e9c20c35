import StakeQuorum.Proofs.Account.Exactness
import StakeQuorum.Proofs.Base58.Lengths
import StakeQuorum.Proofs.Stake.Instructions
import StakeQuorum.Proofs.Stake.Registries
import StakeQuorum.Signature.Ed25519
import StakeQuorum.Transaction

/-! # Which keys are identities

The text of a key is an external address exactly if it has forty-four characters. The holder of such
a key can stake whatever the wallet of the key holds, and becomes a validator by it. The holder of
any other key cannot, although its signatures verify like all others.
-/

namespace StakeQuorum

namespace Stake

open Host Store
open ValidatorSet (ClientFactory Steady Mirrors shown activeSum)

variable {κ : Type} {db : Database} {program staker account : Bytes} {amount : Amount}
  {wallet : Account}

/-! ### Stakes that are paid for -/

/-- Everything that a new stake needs, apart from a staker with an external address. -/
structure Affordable (db : Database) (program staker account : Bytes) (amount : Amount)
    (wallet : Account) : Prop where
  called : program ≠ []
  readable : program.length ≤ CompactSize.maxSize
  named : account ≠ []
  free : record? db account = none
  enough : minimumAmount ≤ amount
  found : held? db staker = some wallet
  owned : wallet.owner = Account.systemProgram
  plain : wallet.data = []
  covered : amount.toNat + surcharge.toNat ≤ wallet.lamports.toNat

def creation (program staker account : Bytes) (total : Amount) (data : Bytes) : List Change :=
  [.update staker total 0 none, .create account total program data]

theorem permitted_creation {total : Amount} {data : Bytes} (hstaker : staker ≠ [])
    (h : Affordable db program staker account amount wallet)
    (htotal : total.toNat = amount.toNat + surcharge.toNat)
    (hrent : Account.rentFor data = surcharge) :
    Permitted db program [staker] (creation program staker account total data) := by
  have hapart : account ≠ staker := by
    rintro rfl
    exact absurd (h.free.symm.trans (record?_of_held? h.found)) (by simp)
  have hcovered := h.covered
  have hle : total ≤ wallet.lamports := by
    rw [UInt64.le_iff_toNat_le]
    omega
  have hexempt : surcharge ≤ total := by
    rw [UInt64.le_iff_toNat_le]
    omega
  have hleft : (wallet.lamports - total).toNat + total.toNat =
      wallet.lamports.toNat + (0 : Amount).toNat := Amount.toNat_sub_add_of_le hle
  constructor
  · exact h.called
  · simp only [creation, List.forall_mem_cons, List.not_mem_nil, false_implies, implies_true,
      and_true]
    constructor
    · exact ⟨_, .update hstaker h.found (fun _ => .inr ⟨h.owned, List.mem_singleton_self _⟩)
        (UInt64.le_iff_toNat_le.1 hle) (by simp) hleft (.inl h.plain)⟩
    · exact ⟨_, .create h.named h.called h.free (hrent.trans_le hexempt)⟩
  · simpa [creation, Change.key] using Ne.symm hapart
  · simp [creation, Change.taken, Change.given]
  · simpa [creation, Change.taken] using total.toNat_lt

theorem create_of_check {signers : List Bytes}
    (h : checkCreate signers staker account amount = .ok ()) (lockPeriod : Int64) :
    (create db program signers staker account amount lockPeriod).value =
      match (Host.apply db program signers (creation program staker account (amount + surcharge)
        (newRecord staker amount lockPeriod).layout)).value with
      | (.error e, db') => (.error (.host e), db')
      | (.ok (), db') => (.ok (newRecord staker amount lockPeriod), db') := by
  unfold create
  simp only [h]
  exact commit_value

theorem exists_create (hh : db.Healthy) (he : Address.isExternal staker = true)
    (h : Affordable db program staker account amount wallet) (lockPeriod : Int64) :
    ∃ db', (create db program [staker] staker account amount lockPeriod).value =
        (.ok (newRecord staker amount lockPeriod), db') ∧
      staked? db' program account = some (newRecord staker amount lockPeriod) := by
  have hlamports := wallet.lamports.toNat_lt_size
  have hcovered := h.covered
  have hbounded : amount.toNat + surcharge.toNat < UInt64.size := by omega
  have hcheck : checkCreate [staker] staker account amount = .ok () :=
    checkCreate_eq_ok_iff.2 ⟨he, List.mem_singleton_self _, h.named, h.enough, hbounded⟩
  have hlength : (newRecord staker amount lockPeriod).layout.length = Record.size :=
    Record.length_layout he
  have hrent : Account.rentFor (newRecord staker amount lockPeriod).layout = surcharge :=
    rentFor_layout he
  have hpermitted := permitted_creation (Record.ne_nil_of_isExternal he) h
    (Amount.toNat_add_of_lt hbounded) hrent
  obtain ⟨⟨⟩, db', happly⟩ := fst_isOk_iff_exists.1 ((apply_isOk_iff hh).2 hpermitted)
  have hsize : Record.size ≤ CompactSize.maxSize := by decide
  have hfits : ∀ c ∈ creation program staker account (amount + surcharge)
      (newRecord staker amount lockPeriod).layout, c.Fits := by
    simp [creation, Change.Fits, h.readable, hlength, hsize]
  obtain ⟨accounts, happlied⟩ := apply_ok hh happly
  obtain ⟨-, hmade⟩ := (carriedOut_of_apply hh hfits happly).created account _ _ _
    (List.mem_cons_of_mem _ List.mem_cons_self)
  rw [account?_value happlied.healthy] at hmade
  refine ⟨db', ?_, staked?_eq_some_iff.2 ⟨_, hmade, rfl, Record.decode?_layout he⟩⟩
  rw [create_of_check hcheck, happly]

theorem transact_of_badStaker (he : Address.isExternal staker = false) {q : Request}
    (hq : q.payment? = some (staker, amount)) :
    (q.transact db program).value = (.error .badStaker, db) := by
  have hrefused : ∀ signers account amount lockPeriod,
      (create db program signers staker account amount lockPeriod).value =
        (.error .badStaker, db) := by
    intro signers account amount lockPeriod
    simp [create, checkCreate, he]
  cases q with
  | create staker' account amount' lockPeriod =>
    simp only [Request.payment?, Option.some.injEq, Prod.mk.injEq] at hq
    obtain ⟨rfl, rfl⟩ := hq
    exact hrefused _ _ _ _
  | withdraw => simp [Request.payment?] at hq
  | process signers staker' account data =>
    rw [Request.transact, process_value]
    cases hd : Instruction.decode? data with
    | none => simp [Request.payment?, hd] at hq
    | some i =>
      cases i with
      | createStake amount' lockPeriod =>
        simp only [Request.payment?, hd, Option.some.injEq, Prod.mk.injEq] at hq
        obtain ⟨rfl, rfl⟩ := hq
        exact hrefused _ _ _ _
      | withdraw => simp [Request.payment?, hd] at hq

/-! ### Who can stake and be a validator -/

theorem amount_le_activeSum {stakes : ValidatorSet.Stakes} {s : Bytes × Record} (h : s ∈ stakes)
    (hactive : s.2.active = true) : s.2.amount.toNat ≤ activeSum stakes s.2.owner :=
  List.le_sum_of_mem (List.mem_map_of_mem (List.mem_filter.2 ⟨h, by simp [hactive]⟩))

namespace Ledger

variable {factories : Factories κ} {l : Ledger κ} {id : Nat} {minimum : Amount}

/-- A new stake that reaches the minimum of a registry makes its staker a member. -/
theorem createStake_lists (hh : l.db.Healthy) (hf : factories.Steady) (hq : l.Quiet)
    (ha : l.Attached id minimum) (he : Address.isExternal staker = true)
    (h : Affordable l.db l.program staker account amount wallet) (hmin : minimum ≤ amount)
    (lockPeriod : Int64) :
    let served := (createStake factories l staker account amount lockPeriod).value
    served.1 = .done (newRecord staker amount lockPeriod) ∧
      ∃ r, Ledger.registry? served.2 id = some r ∧
        ∃ internal stake, (staker, internal, stake) ∈ shown r.members ∧ amount ≤ stake := by
  intro served
  let q : Request := .create staker account amount lockPeriod
  obtain ⟨db', hcreate, hstaked⟩ := exists_create hh he h lockPeriod
  have htransact : (q.transact l.db l.program).value =
      (.ok (newRecord staker amount lockPeriod), db') := hcreate
  have hdone := serve_of_quiet hf hq q
  rw [htransact] at hdone
  have hdb : served.2.db = db' := by
    have hafter := serve_db factories l q
    rwa [Request.after, htransact] at hafter
  have hprogram : served.2.program = l.program := serve_program factories l q
  have hattached : served.2.Attached id minimum := ha.step hh (hq.not_raises hf (.serve q))
  obtain ⟨r, hr, -, hmirrors⟩ := hattached.follows
  rw [hdb, hprogram] at hmirrors
  have hlisted : (account, newRecord staker amount lockPeriod) ∈ (stakes db' l.program).value :=
    mem_stakes_iff.2 hstaked
  have hsum : amount.toNat ≤ activeSum (stakes db' l.program).value staker :=
    amount_le_activeSum hlisted rfl
  have hstake := Amount.toNat_ofTotal (activeSum (stakes db' l.program).value staker)
  have hle : amount ≤ Amount.ofTotal (activeSum (stakes db' l.program).value staker) := by
    have hlt := amount.toNat_lt_size
    rw [UInt64.le_iff_toNat_le]
    omega
  obtain ⟨internal, hinternal⟩ := Address.derive_of_isExternal he
  refine ⟨hdone, r, hr, internal, _, (hmirrors.mem_iff _ _ _).2 ⟨?_, hstake, ?_, hinternal⟩, hle⟩
  · exact ⟨_, hlisted, rfl, rfl⟩
  · exact UInt64.le_trans hmin hle

end Ledger

/-- Whoever owns a wallet under a name can stake from it and is a validator by the stake, and the
name can be entered into any set of validators by hand. -/
structure Eligible (name : Bytes) : Prop where
  stakes : ∀ {κ : Type} (factories : Factories κ) (l : Ledger κ) (id : Nat)
    (minimum amount : Amount) (account : Bytes) (wallet : Account) (lockPeriod : Int64),
    l.db.Healthy → factories.Steady → l.Quiet → l.Attached id minimum →
    Affordable l.db l.program name account amount wallet → minimum ≤ amount →
    let served := (l.createStake factories name account amount lockPeriod).value
    served.1 = .done (newRecord name amount lockPeriod) ∧
      ∃ r, Ledger.registry? served.2 id = some r ∧
        ∃ internal stake, (name, internal, stake) ∈ shown r.members ∧ amount ≤ stake
  enters : ∀ {κ : Type} (set : ValidatorSet κ) (stake : Amount) (client : Option κ),
    set.contains name = false → ∃ set', set.add? name stake client = some set'

/-- Every stake under a name is refused, by a call as by an instruction, and no set of validators
has the name, neither from stakes nor by hand. -/
structure Barred (name : Bytes) : Prop where
  refused : ∀ {κ : Type} (factories : Factories κ) (l : Ledger κ) (q : Request) (amount : Amount),
    q.payment? = some (name, amount) → (l.serve factories q).value = (.refused .badStaker, l)
  unlisted : ∀ {κ : Type} (minimum : Amount) (stakes : ValidatorSet.Stakes) (set : ValidatorSet κ),
    Mirrors minimum stakes set → ∀ internal stake, (name, internal, stake) ∉ shown set
  excluded : ∀ {κ : Type} (set : ValidatorSet κ) (stake : Amount) (client : Option κ),
    set.add? name stake client = none

theorem eligible_of_isExternal {name : Bytes} (he : Address.isExternal name = true) :
    Eligible name where
  stakes _ _ _ _ _ _ _ lockPeriod hh hf hq ha h hmin :=
    Ledger.createStake_lists hh hf hq ha he h hmin lockPeriod
  enters set stake client hnew := by
    obtain ⟨internal, hinternal⟩ := Address.derive_of_isExternal he
    simp [ValidatorSet.add?, hinternal, hnew]

theorem barred_of_not_isExternal {name : Bytes} (he : Address.isExternal name = false) :
    Barred name where
  refused factories l q _ hq := (Ledger.serve_of_error (transact_of_badStaker he hq)).1
  unlisted minimum stakes set hmirrors internal stake hmem := by
    obtain ⟨-, -, -, hinternal⟩ := (hmirrors.mem_iff _ _ _).1 hmem
    have hexternal := Address.exists_derive_iff.1 ⟨internal, hinternal⟩
    rw [he] at hexternal
    exact Bool.false_ne_true hexternal
  excluded set stake client := by
    unfold ValidatorSet.add?
    cases hd : Address.derive name with
    | error e => rfl
    | ok internal =>
      have hexternal := Address.exists_derive_iff.1 ⟨internal, hd⟩
      rw [he] at hexternal
      exact absurd hexternal Bool.false_ne_true

end Stake

/-! ### Texts of keys -/

namespace PublicKey

open Stake
open ValidatorSet (shown)

theorem isExternal_toBase58_iff (k : PublicKey) :
    Address.isExternal k.toBase58 = true ↔ k.toBase58.length = 44 := by
  have hcharacters : k.toBase58.all Bytes.isAlphanumeric = true :=
    Base58.isAlphanumeric_encode k.bytes
  rw [Address.isExternal, hcharacters, Bool.and_true, beq_iff_eq, Address.externalLength]

/-- The text of a key has thirty-two to forty-four letters and digits. It is an external address
exactly if it has forty-four, which is a matter of the number that the key stands for, and exactly
then its holder can stake and be a validator. -/
theorem eligible_iff_long (k : PublicKey) :
    32 ≤ k.toBase58.length ∧ k.toBase58.length ≤ 44 ∧
    k.toBase58.all Bytes.isAlphanumeric = true ∧
    (Address.isExternal k.toBase58 = true ↔ k.toBase58.length = 44) ∧
    (k.toBase58.length = 44 ↔ 58 ^ 43 ≤ Base58.number k.bytes ∨
      58 ^ 42 ≤ Base58.number k.bytes ∧ Base58.number k.bytes < 256 ^ 31) ∧
    (k.toBase58.length = 44 → Eligible k.toBase58) ∧
    (k.toBase58.length ≠ 44 → Barred k.toBase58) := by
  obtain ⟨hleast, hmost⟩ := Base58.length_encode_bounds k.length_bytes
  refine ⟨hleast, hmost, Base58.isAlphanumeric_encode k.bytes, k.isExternal_toBase58_iff,
    Base58.length_encode_eq_iff k.length_bytes, fun hlong => ?_, fun hshort => ?_⟩
  · exact eligible_of_isExternal (k.isExternal_toBase58_iff.2 hlong)
  · exact barred_of_not_isExternal (Bool.eq_false_iff.2 (mt k.isExternal_toBase58_iff.1 hshort))

def holder : Bytes := "4zvwRjXUKGfvwnParsHAS3HuSVzV5cA4McphgmoCtajS"

def shortSeed : Seed := FixedBytes.pad 32 (List.replicate 32 12)

def shortHolder : Bytes := "mBKqcnGotbsSb5vNrdyhzZ5EhqZdids9QYiTRckvi7v"

theorem toBase58_shortSeed : (Ed25519.publicKey shortSeed).toBase58 = shortHolder := by
  decide +kernel

def fullWallet (name : Bytes) : Account := ⟨name, 20000000000, Account.systemProgram, []⟩

theorem affordable_fullWallet {db : Store.Database} {name : Bytes}
    (hfree : Host.record? db "stake" = none)
    (hfound : Host.held? db name = some (fullWallet name)) :
    Affordable db defaultProgram name "stake" minimumAmount (fullWallet name) where
  called := by decide
  readable := by decide
  named := by decide
  free := hfree
  enough := by decide
  found := hfound
  owned := rfl
  plain := rfl
  covered := by
    have hcovered : minimumAmount.toNat + surcharge.toNat ≤ (20000000000 : Amount).toNat := by
      decide
    exact hcovered

/-- The holder of the seed of zeros stakes and is a validator, and the holder of the short key
neither stakes nor is one. -/
theorem eligible_iff_long_twoSeeds :
    let key := Ed25519.publicKey FixedBytes.zero
    let short := Ed25519.publicKey shortSeed
    let factories : Factories Unit := fun _ _ => .ok none
    key.toBase58 = holder ∧ key.toBase58.length = 44 ∧ short.toBase58.length ≠ 44 ∧
    ∃ l : Ledger Unit, l.db.Healthy ∧ factories.Steady ∧ l.Quiet ∧ l.Attached 1 minimumAmount ∧
      Affordable l.db l.program holder "stake" minimumAmount (fullWallet holder) ∧
      (let served := (l.createStake factories holder "stake" minimumAmount 0).value
      served.1 = .done (newRecord holder minimumAmount 0) ∧
        ∃ r, Ledger.registry? served.2 1 = some r ∧
          ∃ internal stake, (holder, internal, stake) ∈ shown r.members ∧ minimumAmount ≤ stake) ∧
      (l.serve factories (.create short.toBase58 "stake" minimumAmount 0)).value =
        (.refused .badStaker, l) := by
  intro key short factories
  have hkey : key.toBase58 = holder := by decide +kernel
  have hlong : key.toBase58.length = 44 := by
    rw [hkey]
    decide
  have hshort : short.toBase58.length ≠ 44 := by
    rw [toBase58_shortSeed]
    decide
  clear_value key short
  obtain ⟨-, -, -, -, -, heligible, -⟩ := eligible_iff_long key
  obtain ⟨-, -, -, -, -, -, hbarred⟩ := eligible_iff_long short
  have hholder : Eligible holder := hkey ▸ heligible hlong
  let funded : Ledger Unit := { db := Host.deposited {} holder 20000000000 }
  have hf : factories.Steady := fun _ _ => ⟨none, rfl⟩
  obtain ⟨l, hopened, hdb, hlisteners, hattached⟩ :=
    Ledger.openRegistry_of_steady (l := funded) hf rfl minimumAmount true
  have hprogram : l.program = defaultProgram :=
    (congrArg (fun t => t.2.program) hopened).symm
  have hh : l.db.Healthy := by
    rw [hdb]
    rfl
  have hq : l.Quiet := by
    rw [Ledger.Quiet, hlisteners]
    simp [funded]
  have haffordable :
      Affordable l.db l.program holder "stake" minimumAmount (fullWallet holder) := by
    rw [hdb, hprogram]
    exact affordable_fullWallet (by decide +kernel) (by decide +kernel)
  exact ⟨hkey, hlong, hshort, l, hh, hf, hq, hattached, haffordable,
    hholder.stakes factories l 1 minimumAmount minimumAmount "stake" (fullWallet holder) 0 hh hf hq
      hattached haffordable (UInt64.le_refl _),
    (hbarred hshort).refused factories l (.create short.toBase58 "stake" minimumAmount 0)
      minimumAmount rfl⟩

/-- The holder of the short key signs transactions that verify, but cannot stake although the wallet
of the key holds enough, nor be entered as a validator. -/
theorem not_eligible_shortSeed :
    let factories : Factories Unit := fun _ _ => .ok none
    let l : Ledger Unit := { db := Host.deposited {} shortHolder 20000000000 }
    let tx := Transaction.signed Ed25519.scheme "pay" shortSeed 5
    (Ed25519.publicKey shortSeed).toBase58 = shortHolder ∧
    tx.signer = shortHolder ∧ tx.verifies Ed25519.scheme = true ∧
    Address.isExternal shortHolder = false ∧
    Affordable l.db l.program shortHolder "stake" minimumAmount (fullWallet shortHolder) ∧
    (l.createStake factories shortHolder "stake" minimumAmount 0).value = (.refused .badStaker, l) ∧
    ({} : ValidatorSet Unit).add? shortHolder minimumAmount none = none := by
  intro factories l tx
  have hverifies : tx.verifies Ed25519.scheme = true := by decide +kernel
  have hshort : Address.isExternal shortHolder = false := by decide
  have hbarred : Barred shortHolder := barred_of_not_isExternal hshort
  exact ⟨toBase58_shortSeed, toBase58_shortSeed, hverifies, hshort,
    affordable_fullWallet (by decide +kernel) (by decide +kernel),
    hbarred.refused factories l (.create shortHolder "stake" minimumAmount 0) minimumAmount rfl,
    hbarred.excluded {} minimumAmount none⟩

end PublicKey

end StakeQuorum
