import StakeQuorum.Proofs.Account.Changes

/-! # Listed accounts

The host lists exactly the accounts that are held under their keys, in the order of the keys.
-/

namespace StakeQuorum.Host

open Store

variable {db : Database} {a : Account} {k owner : Bytes}

theorem readAll_value (es : List (Bytes × Bytes)) :
    (readAll es).value = es.filterMap fun e => Account.decode? e.1.tail e.2 := by
  induction es with
  | nil => rfl
  | cons e es ih =>
    obtain ⟨k, record⟩ := e
    unfold readAll
    cases hd : Account.decode? k.tail record with
    | none => simp [hd, ih]
    | some a => simp [hd, ih]

theorem accounts_value (db : Database) : (Host.accounts db).value =
    (db.scan accountMark).filterMap fun e => Account.decode? e.1.tail e.2 := by
  rw [Host.accounts, Traced.value_bind, readAll_value]
  simp only
  split <;> rfl

theorem eq_accountKey (h : k.head? = some accountMark) : k = accountKey k.tail := by
  cases k with
  | nil => simp at h
  | cons c t =>
    obtain rfl : c = accountMark := by simpa using h
    rfl

theorem accountKey_lt_iff {k k' : Bytes} : accountKey k < accountKey k' ↔ k < k' := by
  rw [accountKey, accountKey, keyIn, keyIn, List.cons_lt_cons_iff,
    or_iff_right (UInt8.lt_irrefl _), and_iff_right rfl]

theorem mem_accounts_iff : a ∈ (Host.accounts db).value ↔ held? db a.key = some a := by
  rw [accounts_value, Database.scan_eq_filter, List.mem_filterMap]
  constructor
  · rintro ⟨⟨k, record⟩, he, hd⟩
    obtain ⟨hm, hk⟩ := List.mem_filter.1 he
    have hk : k = accountKey k.tail := eq_accountKey (by simpa using hk)
    have hr : record? db k.tail = some record := by
      rw [record?, ← hk]
      exact ByteMap.mem_entries_iff.1 hm
    rw [(Account.decode?_eq_some hd).1, held?, hr, Option.bind_some]
    exact hd
  · intro h
    obtain ⟨record, hr, hd⟩ := Option.bind_eq_some_iff.1 h
    refine ⟨(accountKey a.key, record), List.mem_filter.2 ⟨?_, ?_⟩, hd⟩
    · exact ByteMap.mem_entries_iff.2 hr
    · simp [accountKey, keyIn]

theorem ascending_accounts (db : Database) :
    (Host.accounts db).value.Pairwise fun a b => a.key < b.key := by
  rw [accounts_value, Database.scan_eq_filter]
  have hes : (db.contents.entries.filter fun e => e.1.head? == some accountMark).Pairwise
      fun e e' => e.1.tail < e'.1.tail := by
    refine (db.contents.ascending.filter _).imp_of_mem ?_
    intro e e' he he' hlt
    have hk : e.1 = accountKey e.1.tail :=
      eq_accountKey (by simpa using (List.mem_filter.1 he).2)
    have hk' : e'.1 = accountKey e'.1.tail :=
      eq_accountKey (by simpa using (List.mem_filter.1 he').2)
    rwa [hk, hk', accountKey_lt_iff] at hlt
  refine hes.filterMap _ ?_
  intro e e' hlt a ha b hb
  rwa [(Account.decode?_eq_some ha).1, (Account.decode?_eq_some hb).1]

theorem accountsOf_value (db : Database) (owner : Bytes) :
    (accountsOf db owner).value = (Host.accounts db).value.filter (·.owner == owner) := rfl

theorem mem_accountsOf_iff :
    a ∈ (accountsOf db owner).value ↔ held? db a.key = some a ∧ a.owner = owner := by
  rw [accountsOf_value, List.mem_filter, mem_accounts_iff, beq_iff_eq]

theorem ascending_accountsOf (db : Database) (owner : Bytes) :
    (accountsOf db owner).value.Pairwise fun a b => a.key < b.key :=
  (ascending_accounts db).filter _

end StakeQuorum.Host
