import StakeQuorum.Proofs.Account.Listing

/-! # Holdings

The holdings of a database are the sum of all balances over the unbounded numbers. An applied
change set keeps them, a deposit adds to them, and the total that the host reports is what is left
of them in a word.
-/

namespace StakeQuorum.Host

open Store

variable {db db' : Database} {caller : Bytes} {signers : List Bytes} {changes : List Change}
  {accounts : List Account} {c : Change} {a : Account} {key : Bytes} {lamports : Amount}

/-! ### Weights -/

/-- What an entry of the database weighs: what the account weighs that can be read in it. -/
def weightOf (f : Account → Nat) (k record : Bytes) : Nat :=
  if k.head? = some accountMark then (Account.decode? k.tail record).elim 0 f else 0

/-- What the account under a key weighs, zero where no account can be read. -/
def weightAt (f : Account → Nat) (db : Database) (key : Bytes) : Nat := (held? db key).elim 0 f

theorem elim_weightOf (f : Account → Nat) (db : Database) (key : Bytes) :
    (db.contents.get? (accountKey key)).elim 0 (weightOf f (accountKey key)) =
      weightAt f db key := by
  unfold weightAt held? record?
  cases db.contents.get? (accountKey key) with
  | none => rfl
  | some record => simp [weightOf, accountKey, keyIn]

theorem weigh_weightOf (f : Account → Nat) (db : Database) :
    db.contents.weigh (weightOf f) = ((Host.accounts db).value.map f).sum := by
  rw [accounts_value, Database.scan_eq_filter, ByteMap.weigh]
  induction db.contents.entries with
  | nil => rfl
  | cons e es ih =>
    rw [List.map_cons, List.sum_cons, ih, weightOf, List.filter_cons]
    by_cases hm : e.1.head? = some accountMark
    · cases hd : Account.decode? e.1.tail e.2 <;> simp [hm, hd]
    · simp [hm]

/-! ### Balances -/

/-- What an entry of the database counts: the balance of an account that can be read. -/
def worth (k record : Bytes) : Nat :=
  if k.head? = some accountMark then
    (Account.decode? k.tail record).elim 0 (·.lamports.toNat)
  else 0

/-- The sum of all balances. -/
def holdings (db : Database) : Nat := db.contents.weigh worth

def balance (db : Database) (key : Bytes) : Nat := (held? db key).elim 0 (·.lamports.toNat)

theorem worth_accountKey (key record : Bytes) : worth (accountKey key) record =
    (Account.decode? key record).elim 0 (·.lamports.toNat) := by
  simp [worth, accountKey, keyIn]

theorem worth_encode (hf : a.Fits) : worth (accountKey a.key) a.encode = a.lamports.toNat := by
  rw [worth_accountKey, Account.decode?_encode hf, Option.elim_some]

theorem elim_worth (db : Database) (key : Bytes) :
    (db.contents.get? (accountKey key)).elim 0 (worth (accountKey key)) = balance db key :=
  elim_weightOf _ db key

/-! ### Change sets -/

def writes (accounts : List Account) : Batch :=
  accounts.map fun a => (accountKey a.key, some a.encode)

theorem weigh_applyTo_writes (f : Bytes → Bytes → Nat) (m : ByteMap Bytes)
    (hd : (accounts.map (·.key)).Nodup) :
    ((writes accounts).applyTo m).weigh f +
        (accounts.map fun a => (m.get? (accountKey a.key)).elim 0 (f (accountKey a.key))).sum =
      m.weigh f + (accounts.map fun a => f (accountKey a.key) a.encode).sum := by
  induction accounts generalizing m with
  | nil => rfl
  | cons a as ih =>
    rw [List.map_cons, List.nodup_cons] at hd
    have hrest := ih (m.insert (accountKey a.key) a.encode) hd.2
    have hkept : (as.map fun b => ((m.insert (accountKey a.key) a.encode).get?
          (accountKey b.key)).elim 0 (f (accountKey b.key))) =
        as.map fun b => (m.get? (accountKey b.key)).elim 0 (f (accountKey b.key)) := by
      refine List.map_congr_left ?_
      intro b hb
      have hne : ¬ accountKey a.key = accountKey b.key := fun h =>
        hd.1 (List.mem_map.2 ⟨b, hb, (accountKey_inj.1 h).symm⟩)
      rw [ByteMap.get?_insert, if_neg hne]
    have hfirst := ByteMap.weigh_insert f m (accountKey a.key) a.encode
    rw [hkept] at hrest
    simp only [writes, List.map_cons, List.sum_cons, Batch.applyTo_cons, Batch.step] at hrest ⊢
    omega

theorem Applied.contents_eq (h : Applied db caller signers changes accounts db') :
    db'.contents = (writes accounts).applyTo db.contents := by
  have hkeys : (writes accounts).map (·.1) = accounts.map fun a => accountKey a.key := by
    rw [writes, List.map_map]
    rfl
  have hnodup : ((writes accounts).map (·.1)).Nodup := by
    rw [hkeys]
    refine List.pairwise_map.2 ((List.pairwise_map.1 h.distinct).imp ?_)
    intro a b hne heq
    exact hne (accountKey_inj.1 heq)
  refine ByteMap.ext_get? ?_
  intro k
  by_cases hk : ∀ a ∈ accounts, accountKey a.key ≠ k
  · rw [h.kept k hk, Batch.get?_applyTo_of_not_mem]
    rw [hkeys, List.mem_map]
    rintro ⟨a, ha, hak⟩
    exact hk a ha hak
  · push Not at hk
    obtain ⟨a, ha, rfl⟩ := hk
    rw [Batch.get?_applyTo_of_mem _ hnodup (List.mem_map.2 ⟨a, ha, rfl⟩)]
    exact h.stored a ha

theorem Effect.balance (h : Effect db caller signers c a) :
    a.lamports.toNat + c.taken.toNat = Host.balance db a.key + c.given.toNat := by
  cases h with
  | create _ _ fresh =>
    simp [Host.balance, held?, fresh, Change.taken, Change.given]
  | update _ found _ _ _ hb =>
    simpa [Host.balance, (held?_eq_some found).1, found, Change.taken, Change.given] using hb

theorem sum_effects (h : List.Forall₂ (Effect db caller signers) changes accounts) :
    (accounts.map (·.lamports.toNat)).sum + (changes.map (·.taken.toNat)).sum =
      (accounts.map (balance db ·.key)).sum + (changes.map (·.given.toNat)).sum := by
  induction h with
  | nil => rfl
  | cons he _ ih =>
    have hb := he.balance
    simp only [List.map_cons, List.sum_cons]
    omega

/-- What the entries weigh changes by what the accounts weigh that a change set makes. -/
theorem Applied.weigh (h : Applied db caller signers changes accounts db') (f : Account → Nat) :
    db'.contents.weigh (weightOf f) + (accounts.map (weightAt f db ·.key)).sum =
      db.contents.weigh (weightOf f) + (accounts.map (weightAt f db' ·.key)).sum := by
  have hw := weigh_applyTo_writes (weightOf f) db.contents h.distinct
  have hnew : (accounts.map fun a => weightOf f (accountKey a.key) a.encode) =
      accounts.map (weightAt f db' ·.key) := by
    refine List.map_congr_left ?_
    intro a ha
    have hstored : db'.contents.get? (accountKey a.key) = some a.encode := h.stored a ha
    rw [← elim_weightOf, hstored, Option.elim_some]
  simpa only [elim_weightOf, hnew, ← h.contents_eq] using hw

theorem Applied.holdings (h : Applied db caller signers changes accounts db')
    (hf : ∀ a ∈ accounts, a.Fits) : Host.holdings db' = Host.holdings db := by
  have hw : Host.holdings db' + (accounts.map (Host.balance db ·.key)).sum =
      Host.holdings db + (accounts.map (Host.balance db' ·.key)).sum := h.weigh (·.lamports.toNat)
  have hnew : accounts.map (Host.balance db' ·.key) = accounts.map (·.lamports.toNat) := by
    refine List.map_congr_left ?_
    intro a ha
    rw [Host.balance, h.held? ha (hf a ha), Option.elim_some]
  have hs := sum_effects h.effects
  have hb := h.balanced
  rw [hnew] at hw
  omega

theorem holdings_apply (hh : db.Healthy) (hc : ∀ c ∈ changes, c.Fits)
    (h : (apply db caller signers changes).value = (.ok (), db')) : holdings db' = holdings db := by
  obtain ⟨accounts, ha⟩ := apply_ok hh h
  exact ha.holdings (ha.fits hc)

/-! ### Deposits -/

theorem Credit.balance (h : Credit db key lamports a) :
    a.lamports.toNat = Host.balance db key + lamports.toNat := by
  cases h with
  | wallet fresh => simp [Host.balance, held?, fresh]
  | more found hb => simp [Host.balance, found, Amount.toNat_add_of_lt hb]

theorem holdings_deposit (hh : db.Healthy) (h : (deposit db key lamports).value = (.ok (), db')) :
    holdings db' = holdings db + lamports.toNat := by
  obtain ⟨a, hc, rfl⟩ := deposit_ok hh h
  obtain rfl := hc.key_eq
  have hw := ByteMap.weigh_insert worth db.contents (accountKey a.key) a.encode
  rw [elim_worth, worth_encode hc.fits, hc.balance] at hw
  simp only [holdings]
  omega

/-! ### The reported total -/

theorem holdings_eq_sum (db : Database) :
    holdings db = ((Host.accounts db).value.map (·.lamports.toNat)).sum := weigh_weightOf _ db

theorem foldl_amounts {α : Type} (f : α → Amount) (xs : List α) (start : Amount) :
    xs.foldl (fun sum x => sum + f x) start =
      start + UInt64.ofNat (xs.map fun x => (f x).toNat).sum := by
  induction xs generalizing start with
  | nil => simp
  | cons x xs ih =>
    rw [List.foldl_cons, ih, List.map_cons, List.sum_cons, UInt64.ofNat_add, UInt64.ofNat_toNat,
      UInt64.add_assoc]

/-- The reported total is the holdings modulo `2 ^ 64`. -/
theorem totalLamports_value (db : Database) :
    (totalLamports db).value = UInt64.ofNat (holdings db) := by
  rw [holdings_eq_sum, ← UInt64.zero_add (UInt64.ofNat _), ← foldl_amounts]
  rfl

theorem holdings_eq_sum_of_mem {all : Finset Account}
    (hall : ∀ a, a ∈ all ↔ held? db a.key = some a) :
    holdings db = ∑ a ∈ all, a.lamports.toNat := by
  have hlisted : (Host.accounts db).value.toFinset = all := by
    ext a
    rw [List.mem_toFinset, mem_accounts_iff, hall]
  rw [holdings_eq_sum, ← hlisted, List.sum_toFinset _ (nodup_of_ascending (ascending_accounts db))]

end StakeQuorum.Host
