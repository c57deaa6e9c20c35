import StakeQuorum.Account.Host
import StakeQuorum.Proofs.Codec.Records
import StakeQuorum.Proofs.Outcomes
import StakeQuorum.Proofs.Store.Contents

/-! # What an applied change set does

Each change makes one account, and `Effect` says which accounts a change may make on behalf of a
caller. A change set that is applied names every key once, takes away as much as it gives, and
stores exactly the accounts that its changes make.
-/

namespace StakeQuorum

section Forall₂

variable {α β : Type} {R : α → β → Prop} {l : List α} {l' : List β}

theorem exists_of_forall₂_left (h : List.Forall₂ R l l') {a : α} (ha : a ∈ l) :
    ∃ b ∈ l', R a b := by
  induction h with
  | nil => simp at ha
  | cons hab _ ih =>
    rcases List.mem_cons.1 ha with rfl | ha
    · exact ⟨_, List.mem_cons_self, hab⟩
    · obtain ⟨b, hb, hr⟩ := ih ha
      exact ⟨b, List.mem_cons_of_mem _ hb, hr⟩

theorem exists_of_forall₂_right (h : List.Forall₂ R l l') {b : β} (hb : b ∈ l') :
    ∃ a ∈ l, R a b :=
  exists_of_forall₂_left h.flip hb

end Forall₂

namespace Amount

variable {a b : Amount}

theorem addOverflows_eq_false_iff :
    addOverflows a b = false ↔ a.toNat + b.toNat < UInt64.size := by
  rw [← Bool.not_eq_true, addOverflows_iff, Nat.not_le]

theorem toNat_add_of_lt (h : a.toNat + b.toNat < UInt64.size) :
    (a + b).toNat = a.toNat + b.toNat := by
  rw [UInt64.toNat_add, Nat.mod_eq_of_lt h]

theorem toNat_sub_add_of_le (h : b ≤ a) : (a - b).toNat + b.toNat = a.toNat := by
  rw [UInt64.toNat_sub_of_le _ _ h]
  exact Nat.sub_add_cancel (UInt64.le_iff_toNat_le.1 h)

end Amount

def Change.taken : Change → Amount
  | .create .. => 0
  | .update _ debit _ _ => debit

def Change.given : Change → Amount
  | .create _ lamports _ _ => lamports
  | .update _ _ credit _ => credit

/-- What a change brings along is not too long to be read back. -/
def Change.Fits : Change → Prop
  | .create _ _ owner data =>
    owner.length ≤ CompactSize.maxSize ∧ data.length ≤ CompactSize.maxSize
  | .update _ _ _ newData => ∀ data ∈ newData, data.length ≤ CompactSize.maxSize

instance (c : Change) : Decidable c.Fits :=
  match c with
  | .create .. => inferInstanceAs (Decidable (_ ∧ _))
  | .update _ _ _ newData =>
    inferInstanceAs (Decidable (∀ data ∈ newData, data.length ≤ CompactSize.maxSize))

namespace Host

open Store

variable {db db' : Database} {caller : Bytes} {signers : List Bytes} {changes : List Change}
  {accounts : List Account} {s s' : Staging} {c : Change} {a : Account}

/-! ### Stored accounts -/

/-- The record that is stored under an account key, whether or not it can be read. -/
def record? (db : Database) (key : Bytes) : Option Bytes := db.contents.get? (accountKey key)

/-- The account under a key, if there is a record and it can be read. -/
def held? (db : Database) (key : Bytes) : Option Account :=
  (record? db key).bind (Account.decode? key)

theorem account?_value (h : db.Healthy) (key : Bytes) : (account? db key).value = held? db key := by
  unfold account? held? record?
  rw [Database.get_of_healthy h]
  cases db.contents.get? (accountKey key) with
  | none => rfl
  | some record =>
    cases hd : Account.decode? key record <;> simp [hd]

theorem contains_accountKey (h : db.Healthy) (key : Bytes) :
    db.contains (accountKey key) = (record? db key).isSome :=
  Database.contains_of_healthy h _

theorem held?_eq_some (h : held? db key = some a) : a.key = key ∧ a.Fits := by
  obtain ⟨record, -, hd⟩ := Option.bind_eq_some_iff.1 h
  exact Account.decode?_eq_some hd

theorem record?_of_held? (h : held? db key = some a) : record? db key = some a.encode := by
  obtain ⟨record, hr, hd⟩ := Option.bind_eq_some_iff.1 h
  rw [hr, (Account.eq_encode_of_decode? hd).1]

theorem accountKey_inj {k k' : Bytes} : accountKey k = accountKey k' ↔ k = k' := by
  simp [accountKey, keyIn]

theorem record?_insert (db : Database) (key key' record : Bytes) :
    record? { db with contents := db.contents.insert (accountKey key) record } key' =
      if key = key' then some record else record? db key' := by
  simp only [record?, ByteMap.get?_insert, accountKey_inj]

theorem held?_of_record? {key : Bytes} (hr : record? db key = some a.encode) (hk : a.key = key)
    (hf : a.Fits) : held? db key = some a := by
  subst hk
  rw [held?, hr, Option.bind_some, Account.decode?_encode hf]

theorem eq_of_held? {key : Bytes} {b : Account} (hr : record? db key = some a.encode)
    (hk : a.key = key) (h : held? db key = some b) : b = a := by
  subst hk
  by_cases hf : a.Fits
  · rw [held?_of_record? hr rfl hf, Option.some.injEq] at h
    exact h.symm
  · rw [held?, hr, Option.bind_some, Account.decode?_encode_of_not_fits hf] at h
    simp at h

/-! ### Single changes -/

/-- The accounts that a change may make on behalf of a caller, from what the database holds. -/
inductive Effect (db : Database) (caller : Bytes) (signers : List Bytes) : Change → Account → Prop
  | create {key owner data : Bytes} {lamports : Amount} (named : key ≠ []) (owned : owner ≠ [])
      (fresh : record? db key = none) (exempt : Account.rentFor data ≤ lamports) :
      Effect db caller signers (.create key lamports owner data) { key, lamports, owner, data }
  | update {key : Bytes} {debit credit lamports : Amount} {newData : Option Bytes} {a : Account}
      (named : key ≠ []) (found : held? db key = some a)
      (allowed : debit ≠ 0 → a.owner = caller ∨ a.owner = Account.systemProgram ∧ key ∈ signers)
      (covered : debit.toNat ≤ a.lamports.toNat)
      (owned : newData.isSome → a.owner = caller)
      (balance : lamports.toNat + debit.toNat = a.lamports.toNat + credit.toNat)
      (exempt : newData.getD a.data = [] ∨ lamports = 0 ∨
        Account.rentFor (newData.getD a.data) ≤ lamports) :
      Effect db caller signers (.update key debit credit newData)
        { a with lamports, data := newData.getD a.data }

theorem Effect.key_eq (h : Effect db caller signers c a) : a.key = c.key := by
  cases h with
  | create => rfl
  | update _ found => exact (held?_eq_some found).1

theorem Effect.fits (h : Effect db caller signers c a) (hc : c.Fits) : a.Fits := by
  cases h with
  | create => exact hc
  | @update key debit credit lamports newData a named found =>
    have ha := (held?_eq_some found).2
    cases newData with
    | none => exact ha
    | some data => exact ⟨ha.1, hc data rfl⟩

namespace Staging

theorem checkDebit_eq_ok_iff {debit : Amount} :
    checkDebit caller signers a debit = .ok () ↔ debit = 0 ∨
      (a.owner = caller ∨ a.owner = Account.systemProgram ∧ a.key ∈ signers) ∧
        debit ≤ a.lamports := by
  unfold checkDebit
  by_cases hd : debit = 0
  · simp [hd]
  · rw [if_neg hd, ite_error_eq_ok_iff, ite_error_eq_ok_iff, ite_error_eq_ok_iff, or_iff_right hd,
      UInt64.not_lt]
    tauto

theorem create_eq_ok_iff {key owner data : Bytes} {lamports : Amount} {taken : Bool} :
    s.create key lamports owner data taken = .ok s' ↔
      owner ≠ [] ∧ taken = false ∧ Account.rentFor data ≤ lamports ∧
        s.credits.toNat + lamports.toNat < UInt64.size ∧
          s' = { s with
            staged := s.staged.insert key { key, lamports, owner, data }
            credits := s.credits + lamports } := by
  simp only [create, ite_error_eq_ok_iff, List.isEmpty_iff, Bool.not_eq_true, UInt64.not_lt,
    Amount.addOverflows_eq_false_iff, Except.ok.injEq, eq_comm (b := s'), ne_eq]

theorem update_eq_ok_iff {debit credit : Amount} {newData : Option Bytes} :
    s.update caller signers a debit credit newData = .ok s' ↔
      (debit = 0 ∨ (a.owner = caller ∨ a.owner = Account.systemProgram ∧ a.key ∈ signers) ∧
        debit ≤ a.lamports) ∧
      (newData.isSome → a.owner = caller) ∧
      s.debits.toNat + debit.toNat < UInt64.size ∧
      s.credits.toNat + credit.toNat < UInt64.size ∧
      (a.lamports - debit).toNat + credit.toNat < UInt64.size ∧
      (newData.getD a.data = [] ∨ a.lamports - debit + credit = 0 ∨
        Account.rentFor (newData.getD a.data) ≤ a.lamports - debit + credit) ∧
      s' = {
        staged := s.staged.insert a.key
          { a with lamports := a.lamports - debit + credit, data := newData.getD a.data }
        debits := s.debits + debit
        credits := s.credits + credit } := by
  have hu (x : Unit) : x = () := rfl
  rw [update, bind_eq_ok_iff]
  simp only [hu, checkDebit_eq_ok_iff, ite_error_eq_ok_iff, exists_and_left, exists_const,
    Bool.or_eq_true, not_or, Bool.not_eq_true, Amount.addOverflows_eq_false_iff, not_and_or,
    Except.ok.injEq, and_assoc, Bool.not_eq_false', List.isEmpty_iff, ne_eq, not_not,
    UInt64.not_lt, imp_iff_not_or, eq_comm (b := s')]

theorem toNat_balance {lamports debit credit : Amount} (hd : debit = 0 ∨ debit ≤ lamports)
    (h : (lamports - debit).toNat + credit.toNat < UInt64.size) :
    debit.toNat ≤ lamports.toNat ∧
      (lamports - debit + credit).toNat + debit.toNat = lamports.toNat + credit.toNat := by
  have hle : debit ≤ lamports := by
    rcases hd with rfl | hd
    · exact UInt64.zero_le
    · exact hd
  rw [UInt64.le_iff_toNat_le] at hle
  rw [Amount.toNat_add_of_lt h, UInt64.toNat_sub_of_le _ _ (UInt64.le_iff_toNat_le.2 hle)]
  omega

end Staging

/-! ### One change after another -/

theorem stage_value (db : Database) (caller : Bytes) (signers : List Bytes) (s : Staging)
    (c : Change) : (stage db caller signers s c).value =
      if c.key.isEmpty then .error .emptyKey
      else if s.staged.contains c.key then .error (.repeatedKey c.key)
      else match c with
        | .create key lamports owner data =>
          s.create key lamports owner data (db.contains (accountKey key))
        | .update key debit credit newData =>
          match (account? db key).value with
          | none => .error (.accountNotFound key)
          | some a => s.update caller signers a debit credit newData := by
  unfold stage
  split
  · rfl
  split
  · rfl
  cases c with
  | create => rfl
  | update key =>
    simp only [Traced.value_bind]
    cases (account? db key).value <;> rfl

/-- A change that is staged makes one account, whose key was not staged before. -/
theorem stage_ok (hh : db.Healthy) (h : (stage db caller signers s c).value = .ok s') :
    ∃ a, Effect db caller signers c a ∧ s.staged.get? c.key = none ∧
      s'.staged = s.staged.insert c.key a ∧
      s'.debits.toNat = s.debits.toNat + c.taken.toNat ∧
      s'.credits.toNat = s.credits.toNat + c.given.toNat := by
  rw [stage_value, ite_error_eq_ok_iff, ite_error_eq_ok_iff, List.isEmpty_iff, Bool.not_eq_true,
    ByteMap.contains_eq_false_iff] at h
  obtain ⟨hk, hs, h⟩ := h
  cases c with
  | create key lamports owner data =>
    simp only [contains_accountKey hh, Staging.create_eq_ok_iff] at h
    obtain ⟨ho, ht, hr, hc, rfl⟩ := h
    exact ⟨_, .create hk ho (by simpa using ht) hr, hs, rfl, rfl, Amount.toNat_add_of_lt hc⟩
  | update key debit credit newData =>
    simp only [account?_value hh] at h
    cases hf : held? db key with
    | none => simp [hf] at h
    | some a =>
      simp only [hf, Staging.update_eq_ok_iff] at h
      obtain ⟨hd, hn, hds, hcs, hb, hr, rfl⟩ := h
      obtain rfl : a.key = key := (held?_eq_some hf).1
      obtain ⟨hc, hl⟩ := Staging.toNat_balance (hd.imp_right And.right) hb
      have ha : debit ≠ 0 →
          a.owner = caller ∨ a.owner = Account.systemProgram ∧ a.key ∈ signers :=
        fun h0 => (hd.resolve_left h0).1
      exact ⟨_, .update hk hf ha hc hn hl hr, hs, rfl, Amount.toNat_add_of_lt hds,
        Amount.toNat_add_of_lt hcs⟩

/-- What changes make of a staging. -/
structure Stages (db : Database) (caller : Bytes) (signers : List Bytes) (changes : List Change)
    (accounts : List Account) (s s' : Staging) : Prop where
  effects : List.Forall₂ (Effect db caller signers) changes accounts
  distinct : (accounts.map (·.key)).Nodup
  fresh : ∀ a ∈ accounts, s.staged.get? a.key = none
  staged : ∀ a ∈ accounts, s'.staged.get? a.key = some a
  kept : ∀ k, (∀ a ∈ accounts, a.key ≠ k) → s'.staged.get? k = s.staged.get? k
  debits : s'.debits.toNat = s.debits.toNat + (changes.map (·.taken.toNat)).sum
  credits : s'.credits.toNat = s.credits.toNat + (changes.map (·.given.toNat)).sum

theorem stageAll_ok (hh : db.Healthy) (h : (stageAll db caller signers changes s).value = .ok s') :
    ∃ accounts, Stages db caller signers changes accounts s s' := by
  induction changes generalizing s with
  | nil =>
    obtain rfl : s = s' := by simpa [stageAll] using h
    exact ⟨[], .nil, .nil, by simp, by simp, fun _ _ => rfl, rfl, rfl⟩
  | cons c cs ih =>
    simp only [stageAll, Traced.value_bind] at h
    cases hs : (stage db caller signers s c).value with
    | error e => simp [hs] at h
    | ok t =>
      simp only [hs] at h
      obtain ⟨a, he, hn, ht, hd, hc⟩ := stage_ok hh hs
      obtain ⟨as, hrest⟩ := ih h
      have hk := he.key_eq
      have hfresh : ∀ b ∈ as, b.key ≠ a.key ∧ s.staged.get? b.key = none := by
        intro b hb
        have hbf := hrest.fresh b hb
        rw [ht, ByteMap.get?_insert] at hbf
        split at hbf
        · simp at hbf
        · rename_i hne
          exact ⟨fun h => hne (hk ▸ h.symm), hbf⟩
      refine ⟨a :: as, .cons he hrest.effects, ?_, ?_, ?_, ?_, ?_, ?_⟩
      · rw [List.map_cons, List.nodup_cons]
        refine ⟨?_, hrest.distinct⟩
        intro hm
        obtain ⟨b, hb, hbk⟩ := List.mem_map.1 hm
        exact (hfresh b hb).1 hbk
      · intro b hb
        rcases List.mem_cons.1 hb with rfl | hb
        · rw [hk, hn]
        · exact (hfresh b hb).2
      · intro b hb
        rcases List.mem_cons.1 hb with rfl | hb
        · rw [hrest.kept _ fun d hd => (hfresh d hd).1, ht, ByteMap.get?_insert, if_pos hk.symm]
        · exact hrest.staged b hb
      · intro k hne
        have hak : ¬ c.key = k := hk ▸ hne a List.mem_cons_self
        rw [hrest.kept k fun b hb => hne b (List.mem_cons_of_mem _ hb), ht, ByteMap.get?_insert,
          if_neg hak]
      · rw [hrest.debits, hd, List.map_cons, List.sum_cons, Nat.add_assoc]
      · rw [hrest.credits, hc, List.map_cons, List.sum_cons, Nat.add_assoc]

/-! ### Applied change sets -/

/-- What applying a change set makes of a database. -/
structure Applied (db : Database) (caller : Bytes) (signers : List Bytes) (changes : List Change)
    (accounts : List Account) (db' : Database) : Prop where
  effects : List.Forall₂ (Effect db caller signers) changes accounts
  distinct : (accounts.map (·.key)).Nodup
  balanced : (changes.map (·.taken.toNat)).sum = (changes.map (·.given.toNat)).sum
  healthy : db'.Healthy
  stored : ∀ a ∈ accounts, record? db' a.key = some a.encode
  kept : ∀ k, (∀ a ∈ accounts, accountKey a.key ≠ k) → db'.contents.get? k = db.contents.get? k

theorem apply_value (db : Database) (caller : Bytes) (signers : List Bytes)
    (changes : List Change) : (apply db caller signers changes).value =
      if caller.isEmpty then (.error .emptyCaller, db)
      else if changes.isEmpty then (.ok (), db)
      else match (stageAll db caller signers changes {}).value with
        | .error e => (.error e, db)
        | .ok s =>
          if s.debits ≠ s.credits then (.error (.unbalanced s.debits s.credits), db)
          else
            let (status, db) := db.write s.batch
            (if status.isOk then .ok () else .error (.storage status), db) := by
  unfold apply
  split
  · rfl
  split
  · rfl
  simp only [Traced.value_bind]
  cases (stageAll db caller signers changes {}).value with
  | error e => rfl
  | ok s =>
    simp only
    split
    · rfl
    · cases (db.write s.batch).1.isOk <;> rfl

theorem write_of_apply_ok (hne : changes ≠ [])
    (h : (apply db caller signers changes).value = (.ok (), db')) :
    ∃ s, (stageAll db caller signers changes {}).value = .ok s ∧ s.debits = s.credits ∧
      (db.write s.batch).1.isOk = true ∧ (db.write s.batch).2 = db' := by
  rw [apply_value, ite_refused_eq_ok_iff, if_neg (by simpa using hne)] at h
  obtain ⟨-, h⟩ := h
  cases hs : (stageAll db caller signers changes {}).value with
  | error e => simp [hs] at h
  | ok s =>
    simp only [hs, ite_refused_eq_ok_iff, ne_eq, not_not, Prod.mk.injEq] at h
    obtain ⟨hequal, hstatus, hdb⟩ := h
    exact ⟨s, rfl, hequal, by simpa using hstatus, hdb⟩

theorem apply_refused : Spares db (apply db caller signers changes).value := by
  rw [apply_value]
  split
  · exact .of_error _
  split
  · exact .of_ok ..
  split
  · exact .of_error _
  split
  · exact .of_error _
  · exact .of_status Database.snd_write_of_not_isOk

namespace Staging

theorem batch_eq_map (s : Staging) :
    s.batch = s.staged.entries.map fun (key, a) => (accountKey key, some a.encode) := by
  have hputs (es : List (Bytes × Account)) (b : Batch) :
      es.foldl (fun b (key, a) => b.put (accountKey key) a.encode) b =
        b ++ es.map fun (key, a) => (accountKey key, some a.encode) := by
    induction es generalizing b with
    | nil => simp
    | cons e es ih =>
      rw [List.foldl_cons, ih, List.map_cons, List.append_cons]
      rfl
  exact hputs s.staged.entries []

theorem mem_batch_iff {k : Bytes} {v : Option Bytes} :
    (k, v) ∈ s.batch ↔ ∃ key a, s.staged.get? key = some a ∧ accountKey key = k ∧
      some a.encode = v := by
  simp only [batch_eq_map, List.mem_map, Prod.exists, Prod.mk.injEq, ByteMap.mem_entries_iff]

theorem nodup_batch (s : Staging) : (s.batch.map (·.1)).Nodup := by
  rw [batch_eq_map, List.map_map]
  refine List.pairwise_map.2 (s.staged.ascending.imp ?_)
  intro d e hde he
  exact List.lt_irrefl _ ((accountKey_inj.1 he) ▸ hde)

end Staging

theorem apply_ok (hh : db.Healthy) (h : (apply db caller signers changes).value = (.ok (), db')) :
    ∃ accounts, Applied db caller signers changes accounts db' := by
  by_cases hn : changes = []
  · subst hn
    rw [apply_value, ite_refused_eq_ok_iff] at h
    obtain rfl : db = db' := by simpa using h.2
    exact ⟨[], .nil, .nil, rfl, hh, by simp, fun _ _ => rfl⟩
  obtain ⟨s, hs, hb, -, rfl⟩ := write_of_apply_ok hn h
  rw [Database.write_of_healthy hh]
  obtain ⟨accounts, hst⟩ := stageAll_ok hh hs
  refine ⟨accounts, hst.effects, hst.distinct, ?_, hh, ?_, ?_⟩
  · have hd := hst.debits
    have hc := hst.credits
    rw [hb] at hd
    exact Nat.add_left_cancel (hd.symm.trans hc)
  · intro a ha
    exact Batch.get?_applyTo_of_mem _ s.nodup_batch
      (Staging.mem_batch_iff.2 ⟨a.key, a, hst.staged a ha, rfl, rfl⟩)
  · intro k hk
    refine Batch.get?_applyTo_of_not_mem _ ?_
    intro hm
    obtain ⟨⟨k, v⟩, hw, rfl⟩ := List.mem_map.1 hm
    obtain ⟨key, a, ha, rfl, -⟩ := Staging.mem_batch_iff.1 hw
    have hnone : s.staged.get? key = none :=
      hst.kept key fun b hb hbk => hk b hb (hbk ▸ rfl)
    rw [hnone] at ha
    exact absurd ha (by simp)

namespace Applied

variable {key : Bytes}

theorem fits (h : Applied db caller signers changes accounts db') (hc : ∀ c ∈ changes, c.Fits) :
    ∀ a ∈ accounts, a.Fits := by
  intro a ha
  obtain ⟨c, hm, he⟩ := exists_of_forall₂_right h.effects ha
  exact he.fits (hc c hm)

theorem held? (h : Applied db caller signers changes accounts db') (ha : a ∈ accounts)
    (hf : a.Fits) : Host.held? db' a.key = some a :=
  held?_of_record? (h.stored a ha) rfl hf

theorem record?_of_forall_ne (h : Applied db caller signers changes accounts db')
    (hk : ∀ c ∈ changes, c.key ≠ key) : record? db' key = record? db key := by
  refine h.kept _ ?_
  intro a ha heq
  obtain ⟨c, hc, he⟩ := exists_of_forall₂_right h.effects ha
  exact hk c hc (he.key_eq.symm.trans (accountKey_inj.1 heq))

/-- A key either keeps its record or gets the account that a change makes. -/
theorem record?_cases (h : Applied db caller signers changes accounts db') (key : Bytes) :
    record? db' key = record? db key ∨ ∃ c ∈ changes, ∃ a ∈ accounts,
      Effect db caller signers c a ∧ a.key = key ∧ record? db' key = some a.encode := by
  by_cases hk : ∀ c ∈ changes, c.key ≠ key
  · exact .inl (h.record?_of_forall_ne hk)
  · push Not at hk
    obtain ⟨c, hc, rfl⟩ := hk
    obtain ⟨a, ha, he⟩ := exists_of_forall₂_left h.effects hc
    exact .inr ⟨c, hc, a, ha, he, he.key_eq, he.key_eq ▸ h.stored a ha⟩

theorem eq_self (h : Applied db caller signers changes accounts db') (hh : db.Healthy)
    (hsame : ∀ a ∈ accounts, record? db a.key = some a.encode) : db' = db := by
  have hcontents : db'.contents = db.contents := by
    refine ByteMap.ext_get? ?_
    intro k
    by_cases hk : ∀ a ∈ accounts, accountKey a.key ≠ k
    · exact h.kept k hk
    · push Not at hk
      obtain ⟨a, ha, rfl⟩ := hk
      exact (h.stored a ha).trans (hsame a ha).symm
  obtain ⟨contents, fault⟩ := db
  obtain ⟨contents', fault'⟩ := db'
  obtain rfl : fault = none := hh
  obtain rfl : fault' = none := h.healthy
  simpa using hcontents

theorem held?_cases (h : Applied db caller signers changes accounts db')
    (ha : Host.held? db' key = some a) :
    Host.held? db key = some a ∨ ∃ c ∈ changes, Effect db caller signers c a ∧ c.key = key := by
  rcases h.record?_cases key with hr | ⟨c, hc, b, -, he, hk, hr⟩
  · left
    rwa [Host.held?, ← hr]
  · obtain rfl := eq_of_held? hr hk ha
    exact .inr ⟨c, hc, he, he.key_eq.symm.trans hk⟩

end Applied

/-! ### Deposits -/

/-- The accounts that a deposit may make: a new wallet, or the old account with more. -/
inductive Credit (db : Database) (key : Bytes) (lamports : Amount) : Account → Prop
  | wallet (fresh : record? db key = none) :
      Credit db key lamports { key, lamports, owner := Account.systemProgram, data := [] }
  | more {a : Account} (found : held? db key = some a)
      (bounded : a.lamports.toNat + lamports.toNat < UInt64.size) :
      Credit db key lamports { a with lamports := a.lamports + lamports }

namespace Credit

variable {key : Bytes} {lamports : Amount}

theorem key_eq (h : Credit db key lamports a) : a.key = key := by
  cases h with
  | wallet => rfl
  | more found => exact (held?_eq_some found).1

theorem fits (h : Credit db key lamports a) : a.Fits := by
  cases h with
  | wallet =>
    have ho : Account.systemProgram.length ≤ CompactSize.maxSize := by decide
    exact ⟨ho, Nat.zero_le _⟩
  | more found => exact (held?_eq_some found).2

theorem held?_cases {k : Bytes} {b : Account} (h : Credit db key lamports a)
    (hb : held? { db with contents := db.contents.insert (accountKey key) a.encode } k = some b) :
    held? db k = some b ∨ b = a := by
  have hr := record?_insert db key k a.encode
  by_cases hk : key = k
  · rw [if_pos hk] at hr
    exact .inr (eq_of_held? hr (h.key_eq.trans hk) hb)
  · rw [if_neg hk] at hr
    left
    rwa [held?, ← hr]

end Credit

theorem credited_ok {key : Bytes} {lamports : Amount} (hh : db.Healthy)
    (h : credited db key lamports (held? db key) = .ok a) : Credit db key lamports a := by
  cases hf : held? db key with
  | none =>
    rw [hf, credited, ite_error_eq_ok_iff, contains_accountKey hh, Bool.not_eq_true,
      Option.isSome_eq_false_iff, Option.isNone_iff_eq_none] at h
    obtain ⟨hr, h⟩ := h
    cases h
    exact .wallet hr
  | some a =>
    rw [hf, credited, ite_error_eq_ok_iff, Bool.not_eq_true,
      Amount.addOverflows_eq_false_iff] at h
    obtain ⟨hl, h⟩ := h
    cases h
    exact .more hf hl

theorem deposit_value (db : Database) (key : Bytes) (lamports : Amount) :
    (deposit db key lamports).value =
      if key.isEmpty then (.error .emptyKey, db)
      else match credited db key lamports (account? db key).value with
        | .error e => (.error e, db)
        | .ok a =>
          let (status, db) := db.put (accountKey key) a.encode
          (if status.isOk then .ok () else .error (.storage status), db) := by
  unfold deposit
  split
  · rfl
  simp only [Traced.value_bind]
  cases credited db key lamports (account? db key).value <;> rfl

theorem put_of_deposit_ok {key : Bytes} {lamports : Amount}
    (h : (deposit db key lamports).value = (.ok (), db')) :
    ∃ a, credited db key lamports (account? db key).value = .ok a ∧
      (db.put (accountKey key) a.encode).1.isOk = true ∧
        (db.put (accountKey key) a.encode).2 = db' := by
  rw [deposit_value, ite_refused_eq_ok_iff] at h
  obtain ⟨-, h⟩ := h
  cases hc : credited db key lamports (account? db key).value with
  | error e => simp [hc] at h
  | ok a =>
    simp only [hc, Prod.mk.injEq] at h
    obtain ⟨hstatus, hdb⟩ := h
    exact ⟨a, rfl, by simpa using hstatus, hdb⟩

theorem deposit_refused {key : Bytes} {lamports : Amount} :
    Spares db (deposit db key lamports).value := by
  rw [deposit_value]
  split
  · exact .of_error _
  split
  · exact .of_error _
  · exact .of_status Database.snd_put_of_not_isOk

theorem deposit_ok {key : Bytes} {lamports : Amount} (hh : db.Healthy)
    (h : (deposit db key lamports).value = (.ok (), db')) : ∃ a, Credit db key lamports a ∧
      db' = { db with contents := db.contents.insert (accountKey key) a.encode } := by
  obtain ⟨a, hc, -, rfl⟩ := put_of_deposit_ok h
  rw [account?_value hh] at hc
  exact ⟨a, credited_ok hh hc, by rw [Database.put_of_healthy hh]⟩

/-! ### What an operation leaves -/

def applied (db : Database) (caller : Bytes) (signers : List Bytes) (changes : List Change) :
    Database :=
  (apply db caller signers changes).value.2

def deposited (db : Database) (key : Bytes) (lamports : Amount) : Database :=
  (deposit db key lamports).value.2

theorem healthy_applied (hh : db.Healthy) (caller : Bytes) (signers : List Bytes)
    (changes : List Change) : (applied db caller signers changes).Healthy := by
  unfold applied
  rcases h : (apply db caller signers changes).value with ⟨_ | _, db'⟩
  · rwa [apply_refused h]
  · obtain ⟨accounts, ha⟩ := apply_ok hh h
    exact ha.healthy

theorem healthy_deposited (hh : db.Healthy) (key : Bytes) (lamports : Amount) :
    (deposited db key lamports).Healthy := by
  unfold deposited
  rcases h : (deposit db key lamports).value with ⟨_ | _, db'⟩
  · rwa [deposit_refused h]
  · obtain ⟨a, -, rfl⟩ := deposit_ok hh h
    exact hh

end Host

end StakeQuorum
