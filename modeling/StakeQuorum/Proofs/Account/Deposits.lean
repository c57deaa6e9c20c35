import StakeQuorum.Proofs.Account.Exactness

/-! # What a deposit overwrites

A deposit opens a wallet where no record is stored, or adds to the account whose record is there. It
tells the two apart by reading. While all reads fail every key looks unused, and the deposit writes
a new wallet over the record: this loses the record unless it is an empty wallet.
-/

namespace StakeQuorum

namespace Store.Database

/-- A kind of access that does not work reports a failure. -/
def Candid (db : Database) : Prop := ∀ f ∈ db.fault, f.2.isOk = false

instance (db : Database) : Decidable db.Candid :=
  inferInstanceAs (Decidable (∀ f ∈ db.fault, f.2.isOk = false))

variable {db : Database} {access : Access} {s : Status}

theorem Candid.failed (h : db.Candid) (hs : db.faultOn access = some s) :
    db.fault = some (access, s) ∧ s.isOk = false := by
  unfold faultOn at hs
  split at hs
  · rename_i b t hfault
    simp only [Option.ite_none_right_eq_some, Option.some.injEq] at hs
    obtain ⟨rfl, rfl⟩ := hs
    exact ⟨hfault, h _ hfault⟩
  · simp at hs

theorem get_of_readable (h : db.faultOn .get = none) (k : Bytes) :
    db.get k = { db with fault := none }.get k := by
  rw [get, h, get, show faultOn { db with fault := none } .get = none from rfl]

end Store.Database

namespace Host

open Store

variable {db db' : Database} {key : Bytes} {lamports : Amount} {a : Account}

def wallet (key : Bytes) (lamports : Amount) : Account :=
  { key, lamports, owner := Account.systemProgram, data := [] }

/-- A deposit cannot see the record that is stored under its key and loses it. -/
def Overwrites (db : Database) (key : Bytes) : Prop :=
  key ≠ [] ∧ db.faultOn .get ≠ none ∧ record? db key ≠ none ∧ held? db key ≠ some (wallet key 0)

instance (db : Database) (key : Bytes) : Decidable (Overwrites db key) :=
  inferInstanceAs (Decidable (_ ∧ _ ∧ _ ∧ _))

theorem account?_of_readable (h : db.faultOn .get = none) (key : Bytes) :
    (account? db key).value = held? db key := by
  have hh : ({ db with fault := none } : Database).Healthy := rfl
  have hvalue := account?_value hh key
  rw [account?, ← Database.get_of_readable h] at hvalue
  exact hvalue

theorem credited_of_readable (h : db.faultOn .get = none)
    (hc : credited db key lamports (held? db key) = .ok a) : Credit db key lamports a := by
  have hcontains : db.contains (accountKey key) =
      { db with fault := none }.contains (accountKey key) := by
    rw [Database.contains, Database.contains, Database.get_of_readable h]
  have hsame : credited db key lamports (held? db key) =
      credited { db with fault := none } key lamports (held? db key) := by
    cases held? db key <;> simp only [credited, hcontains]
  rw [hsame] at hc
  have hh : ({ db with fault := none } : Database).Healthy := rfl
  cases credited_ok hh hc with
  | wallet fresh => exact .wallet fresh
  | more found bounded => exact .more found bounded

/-- While reads fail, nothing seems to be stored. -/
theorem credited_of_unreadable {s : Status} (fault : db.fault = some (.get, s))
    (failed : s.isOk = false) (key : Bytes) (lamports : Amount) :
    credited db key lamports (account? db key).value = .ok (wallet key lamports) := by
  rw [account?_of_fault fault failed, credited, if_neg]
  · rfl
  · simp [Database.contains, Database.get_of_fault fault failed, Except.toBool]

/-- A new wallet is what a deposit may make if nothing or an empty wallet was there. -/
theorem credit_wallet_iff : Credit db key lamports (wallet key lamports) ↔
    record? db key = none ∨ held? db key = some (wallet key 0) := by
  constructor
  · generalize hw : wallet key lamports = w
    intro h
    cases h with
    | wallet fresh => exact .inl fresh
    | @more old found bounded =>
      obtain ⟨oldKey, balance, owner, data⟩ := old
      obtain ⟨rfl, hsum, rfl, rfl⟩ := Account.mk.inj hw
      have hzero : balance = 0 := by
        have hnat : lamports.toNat = balance.toNat + lamports.toNat :=
          (congrArg UInt64.toNat hsum).trans (Amount.toNat_add_of_lt bounded)
        exact UInt64.toNat_inj.1 (show balance.toNat = 0 by omega)
      exact .inr (hzero ▸ found)
  · rintro (fresh | found)
    · exact .wallet fresh
    · have hbound : (wallet key 0).lamports.toNat + lamports.toNat < UInt64.size := by
        have hlt : lamports.toNat < UInt64.size := lamports.toNat_lt
        have hzero : (wallet key 0).lamports.toNat = 0 := rfl
        omega
      have hmore := Credit.more found hbound
      rwa [show (wallet key 0).lamports + lamports = lamports from UInt64.zero_add lamports]
        at hmore

theorem fits_wallet (key : Bytes) (lamports : Amount) : (wallet key lamports).Fits :=
  have howner : Account.systemProgram.length ≤ CompactSize.maxSize := by decide
  ⟨howner, Nat.zero_le _⟩

theorem deposit_stores (hdb : db.Candid) (h : (deposit db key lamports).value = (.ok (), db')) :
    ∃ a, credited db key lamports (account? db key).value = .ok a ∧
      db' = { db with contents := db.contents.insert (accountKey key) a.encode } := by
  obtain ⟨a, hc, hstatus, rfl⟩ := put_of_deposit_ok h
  refine ⟨a, hc, ?_⟩
  rw [Database.put] at hstatus ⊢
  cases hput : db.faultOn .put with
  | some s => simp [hput, (hdb.failed hput).2] at hstatus
  | none => rfl

theorem deposit_of_unreadable {s : Status} (fault : db.fault = some (.get, s))
    (failed : s.isOk = false) (hkey : key ≠ []) (lamports : Amount) :
    (deposit db key lamports).value = (.ok (), { db with
      contents := db.contents.insert (accountKey key) (wallet key lamports).encode }) := by
  have hput : db.faultOn .put = none := by simp [Database.faultOn, fault]
  rw [deposit_value, credited_of_unreadable fault failed, if_neg (by simpa using hkey)]
  simp only [Database.put, hput]
  rfl

/-- A deposit changes nothing under other keys and nothing at all if it is refused. If it is
accepted, the account under its key has become what a deposit may make of it, unless the deposit
overwrites a record that it cannot see. Every database in which a kind of access that does not work
reports a failure does so. -/
theorem credits_iff_not_overwrites (hdb : db.Candid) (key : Bytes) (lamports : Amount) :
    (∀ k, k ≠ accountKey key →
      (deposited db key lamports).contents.get? k = db.contents.get? k) ∧
    ((deposit db key lamports).value.1.isOk = false → deposited db key lamports = db) ∧
    (((deposit db key lamports).value.1.isOk = true →
      ∃ a, Credit db key lamports a ∧ held? (deposited db key lamports) key = some a) ↔
        ¬ Overwrites db key) := by
  refine ⟨?_, ?_, ?_⟩
  · intro k hk
    rw [deposited]
    rcases h : (deposit db key lamports).value with ⟨_ | _, db'⟩
    · rw [deposit_refused h]
    · obtain ⟨a, -, rfl⟩ := deposit_stores hdb h
      exact (ByteMap.get?_insert ..).trans (if_neg fun h => hk h.symm)
  · intro hno
    obtain ⟨e, db', h⟩ := fst_isOk_eq_false_iff_exists.1 hno
    rw [deposited, h]
    exact deposit_refused h
  · constructor
    · rintro hall ⟨hkey, hget, hrecord, hheld⟩
      obtain ⟨s, hs⟩ := Option.ne_none_iff_exists'.1 hget
      obtain ⟨fault, failed⟩ := hdb.failed hs
      have hdeposit := deposit_of_unreadable fault failed hkey lamports
      obtain ⟨a, hcredit, hafter⟩ := hall (fst_isOk_iff_exists.2 ⟨_, _, hdeposit⟩)
      have hwallet : held? (deposited db key lamports) key = some (wallet key lamports) := by
        rw [deposited, hdeposit]
        exact held?_of_record? ((record?_insert ..).trans (if_pos rfl)) rfl (fits_wallet ..)
      obtain rfl : wallet key lamports = a := Option.some.inj (hwallet.symm.trans hafter)
      exact (credit_wallet_iff.1 hcredit).elim hrecord hheld
    · intro hno hok
      obtain ⟨⟨⟩, db', h⟩ := fst_isOk_iff_exists.1 hok
      obtain ⟨a, hc, rfl⟩ := deposit_stores hdb h
      have hcredit : Credit db key lamports a := by
        cases hget : db.faultOn .get with
        | none =>
          rw [account?_of_readable hget] at hc
          exact credited_of_readable hget hc
        | some s =>
          obtain ⟨fault, failed⟩ := hdb.failed hget
          rw [credited_of_unreadable fault failed] at hc
          obtain rfl : wallet key lamports = a := Except.ok.inj hc
          have hkey : key ≠ [] := by
            rintro rfl
            simp [deposit_value] at h
          rw [credit_wallet_iff]
          by_contra hlost
          rw [not_or] at hlost
          exact hno ⟨hkey, by simp [hget], hlost.1, hlost.2⟩
      refine ⟨a, hcredit, ?_⟩
      rw [deposited, h]
      exact held?_of_record? ((record?_insert ..).trans (if_pos rfl)) hcredit.key_eq hcredit.fits

def unreadableSavings : Database :=
  let db := deposited {} "savings" 1000
  { db with
    contents := db.contents.insert (accountKey "broken") [9]
    fault := some (.get, { code := .ioError, message := "disk" }) }

/-- A new account is funded although nothing can be read. Once reads work again, so are the savings,
and a deposit to the broken account changes nothing. -/
theorem credits_newcomer :
    let readable := { unreadableSavings with fault := none }
    unreadableSavings.Candid ∧ readable.Candid ∧
      (∃ a, Credit unreadableSavings "newcomer" 5 a ∧
        held? (deposited unreadableSavings "newcomer" 5) "newcomer" = some a) ∧
      (∃ a, Credit readable "savings" 5 a ∧
        held? (deposited readable "savings" 5) "savings" = some a) ∧
      deposited readable "broken" 5 = readable := by
  intro readable
  have hdb : unreadableSavings.Candid := by decide
  have hreadable : readable.Candid := by decide
  obtain ⟨-, -, hnew⟩ := credits_iff_not_overwrites hdb "newcomer" 5
  obtain ⟨-, -, hsavings⟩ := credits_iff_not_overwrites hreadable "savings" 5
  obtain ⟨-, hbroken, -⟩ := credits_iff_not_overwrites hreadable "broken" 5
  exact ⟨hdb, hreadable, hnew.2 (by decide) rfl, hsavings.2 (by decide) rfl, hbroken rfl⟩

/-- The savings are lost to a deposit of one lamport that is accepted. -/
theorem not_credits_savings :
    unreadableSavings.Candid ∧ (deposit unreadableSavings "savings" 1).value.1.isOk = true ∧
      held? unreadableSavings "savings" = some (wallet "savings" 1000) ∧
      held? (deposited unreadableSavings "savings" 1) "savings" = some (wallet "savings" 1) ∧
      ¬ ∃ a, Credit unreadableSavings "savings" 1 a ∧
        held? (deposited unreadableSavings "savings" 1) "savings" = some a := by
  have hbefore : held? unreadableSavings "savings" = some (wallet "savings" 1000) := rfl
  have hafter : held? (deposited unreadableSavings "savings" 1) "savings" =
      some (wallet "savings" 1) := rfl
  refine ⟨by decide, rfl, hbefore, hafter, ?_⟩
  rintro ⟨a, hcredit, ha⟩
  obtain rfl : wallet "savings" 1 = a := Option.some.inj (hafter.symm.trans ha)
  rcases credit_wallet_iff.1 hcredit with hnone | hempty
  · exact absurd hnone (by decide)
  · rw [hbefore] at hempty
    exact absurd hempty (by decide)

end Host

end StakeQuorum
