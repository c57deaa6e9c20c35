import StakeQuorum.Proofs.Account.Acceptance

/-! # Exactly or not at all

A change set that is applied becomes exactly what it says, and one that is refused leaves no trace.
This holds also while all reads or all writes fail: without reads nobody can pay for a new account,
and without writes nothing is committed.
-/

namespace StakeQuorum

namespace Store.Database

/-- Every access works, or every read or every write reports a failure. -/
inductive Faithful (db : Database) : Prop
  | healthy (h : db.Healthy)
  | reads {s : Status} (fault : db.fault = some (.get, s)) (failed : s.isOk = false)
  | writes {s : Status} (fault : db.fault = some (.write, s)) (failed : s.isOk = false)

variable {db : Database} {s : Status}

theorem get_of_fault (h : db.fault = some (.get, s)) (hs : s.isOk = false) (k : Bytes) :
    db.get k = .error s := by
  simp [get, faultOn, h, hs]

theorem write_of_fault (h : db.fault = some (.write, s)) (hs : s.isOk = false) (b : Batch) :
    (db.write b).1.isOk = false := by
  simp [write, faultOn, h, hs]

end Store.Database

theorem Account.toNat_rentFor {data : Bytes} (h : data.length ≤ CompactSize.maxSize) :
    (rentFor data).toNat = (128 + data.length) * 6960 := by
  have hmax : CompactSize.maxSize = 33554432 := rfl
  have hlen : (UInt64.ofNat data.length).toNat = data.length :=
    UInt64.toNat_ofNat_of_lt (by rw [UInt64.size]; omega)
  simp only [rentFor, rentMinimum, UInt64.toNat_mul, UInt64.toNat_add, hlen, UInt64.reduceToNat]
  omega

namespace Host

open Store

variable {db db' : Database} {caller : Bytes} {signers : List Bytes} {changes : List Change}
  {s s' : Staging} {c : Change} {a : Account} {key : Bytes}

/-! ### Failing databases -/

theorem account?_of_fault {status : Status} (fault : db.fault = some (.get, status))
    (failed : status.isOk = false) (key : Bytes) : (account? db key).value = none := by
  rw [account?, Database.get_of_fault fault failed]
  simp only
  split <;> rfl

theorem healthy_of_update_ok {debit credit : Amount} {newData : Option Bytes} (hdb : db.Faithful)
    (h : (apply db caller signers (.update key debit credit newData :: changes)).value =
      (.ok (), db')) : db.Healthy := by
  obtain ⟨s, hs, -, hw, -⟩ := write_of_apply_ok (by simp) h
  cases hdb with
  | healthy hh => exact hh
  | reads fault failed =>
    have hstage : ∀ t, (stage db caller signers {} (.update key debit credit newData)).value ≠
        .ok t := by
      simp [stage_value, ite_error_eq_ok_iff, account?_of_fault fault failed]
    simp only [stageAll, Traced.value_bind] at hs
    cases ht : (stage db caller signers {} (.update key debit credit newData)).value with
    | error e => simp [ht] at hs
    | ok t => exact absurd ht (hstage t)
  | writes fault failed => simp [Database.write_of_fault fault failed] at hw

theorem stage_of_unreadable (hread : ∀ key, (account? db key).value = none) (hc : c.Fits)
    (h : (stage db caller signers s c).value = .ok s') :
    s'.debits = s.debits ∧ s.credits.toNat < s'.credits.toNat := by
  rw [stage_value, ite_error_eq_ok_iff, ite_error_eq_ok_iff] at h
  obtain ⟨-, -, h⟩ := h
  cases c with
  | create key lamports owner data =>
    obtain ⟨-, -, hrent, hcredits, rfl⟩ := Staging.create_eq_ok_iff.1 h
    have hcost := Account.toNat_rentFor hc.2
    rw [UInt64.le_iff_toNat_le] at hrent
    refine ⟨rfl, ?_⟩
    rw [Amount.toNat_add_of_lt hcredits]
    omega
  | update => simp [hread] at h

theorem stageAll_of_unreadable (hread : ∀ key, (account? db key).value = none)
    (hc : ∀ c ∈ changes, c.Fits) (h : (stageAll db caller signers changes s).value = .ok s') :
    s'.debits = s.debits ∧ s.credits.toNat + changes.length ≤ s'.credits.toNat := by
  induction changes generalizing s with
  | nil =>
    obtain rfl : s = s' := by simpa [stageAll] using h
    exact ⟨rfl, Nat.le_refl _⟩
  | cons c cs ih =>
    obtain ⟨hfirst, hc⟩ := List.forall_mem_cons.1 hc
    simp only [stageAll, Traced.value_bind] at h
    cases hs : (stage db caller signers s c).value with
    | error e => simp [hs] at h
    | ok t =>
      simp only [hs] at h
      obtain ⟨hd, hlt⟩ := stage_of_unreadable hread hfirst hs
      obtain ⟨hd', hle⟩ := ih hc h
      refine ⟨hd'.trans hd, ?_⟩
      rw [List.length_cons]
      omega

/-- A failing database is not changed by any change set. -/
theorem healthy_of_apply_ok (hdb : db.Faithful) (hc : ∀ c ∈ changes, c.Fits) (hne : changes ≠ [])
    (h : (apply db caller signers changes).value = (.ok (), db')) : db.Healthy := by
  obtain ⟨s, hs, hequal, hw, -⟩ := write_of_apply_ok hne h
  cases hdb with
  | healthy hh => exact hh
  | reads fault failed =>
    obtain ⟨hd, hle⟩ := stageAll_of_unreadable (account?_of_fault fault failed) hc hs
    have hpos := List.length_pos_iff.2 hne
    have hzero : s.credits.toNat = 0 := by
      rw [← hequal, hd]
      rfl
    omega
  | writes fault failed => simp [Database.write_of_fault fault failed] at hw

/-! ### What is carried out -/

/-- The changes have become what they say, and nothing else has changed. -/
structure CarriedOut (db : Database) (changes : List Change) (db' : Database) : Prop where
  distinct : (changes.map (·.key)).Nodup
  kept : ∀ k, (∀ c ∈ changes, accountKey c.key ≠ k) → db'.contents.get? k = db.contents.get? k
  created : ∀ key lamports owner data, .create key lamports owner data ∈ changes →
    db.contents.get? (accountKey key) = none ∧
      (account? db' key).value = some { key, lamports, owner, data }
  updated : ∀ key debit credit newData, .update key debit credit newData ∈ changes →
    ∃ a lamports, (account? db key).value = some a ∧ debit.toNat ≤ a.lamports.toNat ∧
      lamports.toNat = a.lamports.toNat - debit.toNat + credit.toNat ∧
      (account? db' key).value = some { a with lamports, data := newData.getD a.data }

theorem carriedOut_of_apply (hh : db.Healthy) (hc : ∀ c ∈ changes, c.Fits)
    (h : (apply db caller signers changes).value = (.ok (), db')) : CarriedOut db changes db' := by
  obtain ⟨accounts, ha⟩ := apply_ok hh h
  have hmade : ∀ c ∈ changes, ∃ a, Effect db caller signers c a ∧
      (account? db' c.key).value = some a := by
    intro c hm
    obtain ⟨a, hmem, he⟩ := exists_of_forall₂_left ha.effects hm
    refine ⟨a, he, ?_⟩
    rw [account?_value ha.healthy, ← he.key_eq]
    exact ha.held? hmem (he.fits (hc c hm))
  constructor
  · rw [keys_of_effects ha.effects]
    exact ha.distinct
  · intro k hk
    refine ha.kept k ?_
    intro a hmem heq
    obtain ⟨c, hm, he⟩ := exists_of_forall₂_right ha.effects hmem
    exact hk c hm (he.key_eq ▸ heq)
  · intro key lamports owner data hm
    obtain ⟨a, he, hread⟩ := hmade _ hm
    cases he with
    | create _ _ fresh => exact ⟨fresh, hread⟩
  · intro key debit credit newData hm
    obtain ⟨b, he, hread⟩ := hmade _ hm
    cases he with
    | @update _ _ _ lamports _ a _ found _ covered _ balance =>
      exact ⟨a, lamports, (account?_value hh key).trans found, covered, by omega, hread⟩

/-- A change set that is refused leaves the database as it was, and one that is applied is carried
out. A database whose accesses work applies everything that is permitted. -/
theorem apply_exactly_or_not_at_all (hdb : db.Faithful) (hc : ∀ c ∈ changes, c.Fits) :
    ((apply db caller signers changes).value.1.isOk = false →
      applied db caller signers changes = db) ∧
    ((apply db caller signers changes).value.1.isOk = true → changes ≠ [] →
      CarriedOut db changes (applied db caller signers changes)) ∧
    (db.Healthy → ((apply db caller signers changes).value.1.isOk = true ↔
      Permitted db caller signers changes)) := by
  refine ⟨?_, ?_, fun hh => apply_isOk_iff hh⟩
  · intro hno
    obtain ⟨e, db', h⟩ := fst_isOk_eq_false_iff_exists.1 hno
    rw [applied, h]
    exact apply_refused h
  · intro hok hne
    obtain ⟨⟨⟩, db', h⟩ := fst_isOk_iff_exists.1 hok
    have hh := healthy_of_apply_ok hdb hc hne h
    rw [applied, h]
    exact carriedOut_of_apply hh hc h

def sale : List Change :=
  [.update "customer" 1000000 0 none, .update "shop" 0 95000 none,
    .create "ticket" 905000 "market" [1, 2]]

/-- The sale is carried out in a database with a corrupt record, and leaves no trace in one that
cannot be written. -/
theorem sale_exactly_or_not_at_all :
    let funded := deposited (deposited {} "customer" 2000000) "shop" 1
    let db := { funded with contents := funded.contents.insert (accountKey "broken") [9] }
    let failing := { db with fault := some (.write, { code := .ioError }) }
    db.Faithful ∧ failing.Faithful ∧ (∀ c ∈ sale, c.Fits) ∧
      (apply db "market" ["customer"] sale).value.1.isOk = true ∧
      CarriedOut db sale (applied db "market" ["customer"] sale) ∧
      (apply failing "market" ["customer"] sale).value.1.isOk = false ∧
      applied failing "market" ["customer"] sale = failing := by
  intro funded db failing
  have hdb : db.Faithful := .healthy rfl
  have hfailing : failing.Faithful := .writes rfl rfl
  have hc : ∀ c ∈ sale, c.Fits := by decide
  have hok : (apply db "market" ["customer"] sale).value.1.isOk = true := by rfl
  have hno : (apply failing "market" ["customer"] sale).value.1.isOk = false := by rfl
  refine ⟨hdb, hfailing, hc, hok, ?_, hno, ?_⟩
  · exact (apply_exactly_or_not_at_all hdb hc).2.1 hok (by decide)
  · exact (apply_exactly_or_not_at_all hfailing hc).1 hno

end Host

end StakeQuorum
