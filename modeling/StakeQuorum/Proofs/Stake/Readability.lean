import StakeQuorum.Proofs.Account.Acceptance
import StakeQuorum.Proofs.Account.Authority
import StakeQuorum.Proofs.Runs
import StakeQuorum.Proofs.Stake.Conservation

/-! # Records that can be read back

An account is stored whatever the length of its owner and its data, but a record whose owner or
data is longer than the largest size is never read again, and nothing repairs it. All records of a
database can be read exactly when no committed operation has stored such an account.
-/

namespace StakeQuorum

open Host Store
variable {κ : Type} {db db' : Database} {caller program : Bytes} {signers : List Bytes}
  {changes : List Change} {accounts : List Account} {c : Change} {a : Account} {key : Bytes}
  {lamports : Amount} {q : Stake.Request} {record : Stake.Record}

namespace Host

/-- Every record that is stored under the key of an account can be read. -/
def Readable (db : Database) : Prop :=
  ∀ key record, db.contents.get? (accountKey key) = some record →
    (Account.decode? key record).isSome

theorem isSome_decode?_encode_iff : (Account.decode? key a.encode).isSome ↔ a.Fits := by
  by_cases hf : a.Fits
  · simp [Account.decode?_encode hf, hf]
  · simp [Account.decode?_encode_of_not_fits hf, hf]

/-! ### Change sets -/

theorem Effect.fits_iff (h : Effect db caller signers c a) : a.Fits ↔ c.Fits := by
  refine ⟨?_, h.fits⟩
  intro hf
  cases h with
  | create => exact hf
  | @update key debit credit lamports newData =>
    rintro data rfl
    exact hf.2

theorem Applied.account?_value (h : Applied db caller signers changes accounts db')
    (hc : c ∈ changes) : ∃ a, Effect db caller signers c a ∧
      (account? db' c.key).value = if c.Fits then some a else none := by
  obtain ⟨a, ha, he⟩ := exists_of_forall₂_left h.effects hc
  refine ⟨a, he, ?_⟩
  rw [Host.account?_value h.healthy, ← he.key_eq]
  by_cases hf : c.Fits
  · rw [if_pos hf]
    exact h.held? ha (he.fits hf)
  · rw [if_neg hf, Host.held?, h.stored a ha, Option.bind_some]
    exact Account.decode?_encode_of_not_fits (mt he.fits_iff.1 hf)

theorem Applied.readable_iff (h : Applied db caller signers changes accounts db') :
    Readable db' ↔ Readable db ∧ ∀ c ∈ changes, c.Fits := by
  constructor
  · intro hr
    constructor
    · intro key record hk
      by_contra hn
      have hnone : Host.held? db key = none := by
        rw [Host.held?, record?, hk, Option.bind_some]
        exact Option.not_isSome_iff_eq_none.1 hn
      exact hn (hr key record (h.record?_of_unreadable hk hnone))
    · intro c hc
      obtain ⟨a, ha, he⟩ := exists_of_forall₂_left h.effects hc
      exact he.fits_iff.1 (isSome_decode?_encode_iff.1 (hr a.key a.encode (h.stored a ha)))
  · rintro ⟨hr, hfit⟩ key record hk
    rcases h.record?_cases key with hkept | ⟨c, hc, a, -, he, -, hnew⟩
    · exact hr key record (hkept.symm.trans hk)
    · obtain rfl : a.encode = record := Option.some.inj (hnew.symm.trans hk)
      exact isSome_decode?_encode_iff.2 (he.fits (hfit c hc))

/-! ### Deposits -/

theorem readable_deposited_iff (hh : db.Healthy) (key : Bytes) (lamports : Amount) :
    Readable (deposited db key lamports) ↔ Readable db := by
  unfold deposited
  rcases hd : (deposit db key lamports).value with ⟨_ | _, db'⟩
  · rw [deposit_refused hd]
  · obtain ⟨a, hc, rfl⟩ := deposit_ok hh hd
    constructor
    · intro hr k record hk
      have hkey := record?_insert db key k a.encode
      by_cases he : key = k
      · subst he
        cases hc with
        | wallet fresh => exact absurd (fresh.symm.trans hk) (by simp)
        | @more old found =>
          have hold := record?_of_held? found
          obtain rfl : old.encode = record := Option.some.inj (hold.symm.trans hk)
          exact isSome_decode?_encode_iff.2 (held?_eq_some found).2
      · rw [if_neg he] at hkey
        exact hr k record (hkey.trans hk)
    · intro hr k record hk
      have hkey := record?_insert db key k a.encode
      by_cases he : key = k
      · rw [if_pos he] at hkey
        obtain rfl : a.encode = record := Option.some.inj (hkey.symm.trans hk)
        exact isSome_decode?_encode_iff.2 hc.fits
      · rw [if_neg he] at hkey
        exact hr k record (hkey.symm.trans hk)

end Host

namespace Stake

/-! ### Requests -/

/-- What a request stores can be read back, unless it is a new stake of a program with too long an
id. -/
theorem Deal.fits_iff (h : Deal db program q changes record) :
    (∀ c ∈ changes, c.Fits) ↔ (q.payment?.isSome → program.length ≤ CompactSize.maxSize) := by
  constructor
  · intro hfit hq
    cases h with
    | creation => exact (hfit _ (List.mem_cons_of_mem _ List.mem_cons_self)).1
    | withdrawal asked => simp [asked] at hq
  · intro hp
    refine h.fits ?_
    cases h with
    | creation asked => exact hp (by simp [asked])
    | withdrawal _ found owned => exact owned ▸ (held?_eq_some found).2.1

namespace Deed

/-- A deed commits an account that is too long to be read back. -/
def Buries (db : Database) : Deed κ → Prop
  | apply caller signers changes =>
    (Host.apply db caller signers changes).value.1.isOk ∧ ∃ c ∈ changes, ¬ c.Fits
  | deposit .. => False
  | serve _ l q => (q.transact db l.program).value.1.isOk ∧ q.payment?.isSome ∧
      CompactSize.maxSize < l.program.length

theorem Fits.not_buries {d : Deed κ} (h : d.Fits) : ¬ d.Buries db := by
  cases d with
  | apply => rintro ⟨-, c, hc, hn⟩; exact hn (h c hc)
  | deposit => exact id
  | serve => rintro ⟨-, -, hp⟩; exact Nat.not_lt.2 h hp

theorem readable_step_iff (hh : db.Healthy) (d : Deed κ) :
    Readable (d.step db) ↔ Readable db ∧ ¬ d.Buries db := by
  cases d with
  | apply caller signers changes =>
    simp only [step, applied, Buries]
    rcases h : (Host.apply db caller signers changes).value with ⟨_ | _, db'⟩
    · simp [apply_refused h, Except.isOk, Except.toBool]
    · obtain ⟨accounts, ha⟩ := apply_ok hh h
      simp [ha.readable_iff, Except.isOk, Except.toBool]
  | deposit key lamports => simpa [step, Buries] using readable_deposited_iff hh key lamports
  | serve factories l q =>
    rw [step, Ledger.serve_db, Request.after, Buries]
    rcases h : (q.transact db l.program).value with ⟨_ | record, db'⟩
    · simp [transact_refused h, Except.isOk, Except.toBool]
    · obtain ⟨signers, changes, hd, happ⟩ := transact_ok hh h
      obtain ⟨accounts, ha⟩ := apply_ok hh happ
      simp [ha.readable_iff, hd.fits_iff, Except.isOk, Except.toBool]

/-- A record that cannot be read stays so, so that the end of a run tells of all its deeds. -/
theorem readable_run_iff (hh : db.Healthy) (ds : List (Deed κ)) : Readable (run db ds) ↔
    Readable db ∧ ∀ n (d : Deed κ), ds[n]? = some d → ¬ d.Buries (run db (ds.take n)) := by
  have hstep (db : Database) (d : Deed κ) (hh : db.Healthy) := readable_step_iff hh d
  exact foldl_iff (fun _ d hh => healthy_step hh d) hstep hh ds

end Deed

theorem readable_empty : Readable {} := by
  intro key record hk
  have hnone : (none : Option Bytes) = some record := hk
  cases hnone

/-- All records that a run leaves can be read exactly when no deed of the run commits an account
that is too long. A committed change set leaves the account of each change, and the account is
found again exactly when the change fits. -/
theorem readable_iff_not_buries (ds : List (Deed κ)) :
    (Readable (Deed.run {} ds) ↔
      ∀ n (d : Deed κ), ds[n]? = some d → ¬ d.Buries (Deed.run {} (ds.take n))) ∧
    ∀ caller signers changes db', (Host.apply (Deed.run {} ds) caller signers changes).value =
        (.ok (), db') → ∀ c ∈ changes, ∃ a, Effect (Deed.run {} ds) caller signers c a ∧
      (account? db' c.key).value = if c.Fits then some a else none := by
  have hh : ({} : Database).Healthy := rfl
  constructor
  · rw [Deed.readable_run_iff hh, and_iff_right readable_empty]
  · intro caller signers changes db' h c hc
    obtain ⟨accounts, ha⟩ := apply_ok (Deed.healthy_run hh ds) h
    exact ha.account?_value hc

def publication : List Change :=
  [.update "payer" 925680 0 none, .create "page" 925680 "press" "hello"]

def pressDeeds : List (Deed Unit) :=
  [.deposit "payer" 2000000, .apply "press" ["payer"] publication, .deposit "page" 1,
    .apply "press" [] [.update "page" 925681 0 (some []), .update "payer" 0 925681 none]]

theorem readable_after_pressDeeds : Readable (Deed.run {} pressDeeds) ∧
    ∃ db', (Host.apply (Deed.run {} (pressDeeds.take 1)) "press" ["payer"] publication).value =
        (.ok (), db') ∧
      ∃ a, Effect (Deed.run {} (pressDeeds.take 1)) "press" ["payer"]
          (.create "page" 925680 "press" "hello") a ∧
        (account? db' "page").value = some a := by
  have hfit : ∀ d ∈ pressDeeds, d.Fits := by decide
  obtain ⟨db', happ⟩ : ∃ db', (Host.apply (Deed.run {} (pressDeeds.take 1)) "press" ["payer"]
      publication).value = (.ok (), db') := ⟨_, by rfl⟩
  constructor
  · refine (readable_iff_not_buries pressDeeds).1.2 ?_
    intro n d hd
    exact (hfit d (List.mem_of_getElem? hd)).not_buries
  · exact ⟨db', happ, (readable_iff_not_buries (pressDeeds.take 1)).2 _ _ _ db' happ _
      (List.mem_cons_of_mem _ List.mem_cons_self)⟩

def longOwner : Bytes := List.replicate (CompactSize.maxSize + 1) 'o'.toUInt8

def opening (owner : Bytes) : List Change :=
  [.update "payer" 890880 0 none, .create "shop" 890880 owner []]

theorem permitted_opening {owner : Bytes} (ho : owner ≠ []) :
    Permitted (deposited {} "payer" 2000000) "market" ["payer"] (opening owner) := by
  have hpaid : Effect (deposited {} "payer" 2000000) "market" ["payer"]
      (.update "payer" 890880 0 none) ⟨"payer", 1109120, "system", []⟩ :=
    .update (a := ⟨"payer", 2000000, "system", []⟩) (by decide) (by rfl) (fun _ => .inr (by decide))
      (by decide) (by simp) (by decide) (.inl rfl)
  have hdistinct : ((opening owner).map (·.key)).Nodup := by
    simp only [opening, List.map, Change.key]
    decide
  have hbounded : ((opening owner).map (·.taken.toNat)).sum < UInt64.size := by
    simp only [opening, List.map, Change.taken]
    decide
  refine ⟨by decide, ?_, hdistinct, by simp [opening, Change.taken, Change.given], hbounded⟩
  intro c hc
  simp only [opening, List.mem_cons, List.not_mem_nil, or_false] at hc
  rcases hc with rfl | rfl
  · exact ⟨_, hpaid⟩
  · exact ⟨_, .create (by decide) ho (by rfl) (by decide)⟩

def launch : List (Deed Unit) :=
  [.deposit "payer" 2000000, .apply "market" ["payer"] (opening longOwner)]

/-- A shop with too long an owner is opened and never found again. -/
theorem not_readable_opening : longOwner.length ≤ 2 ^ 40 ∧
    ∃ db', (Host.apply (Deed.run {} (launch.take 1)) "market" ["payer"]
        (opening longOwner)).value = (.ok (), db') ∧ (account? db' "shop").value = none ∧
      ¬ Readable (Deed.run {} launch) := by
  have hh : (deposited {} "payer" 2000000).Healthy := rfl
  have hlength : longOwner.length = CompactSize.maxSize + 1 := List.length_replicate
  have howner : longOwner ≠ [] := List.ne_nil_of_length_eq_add_one hlength
  have hlong : ¬ (Change.create "shop" 890880 longOwner []).Fits := by
    rintro ⟨hf, -⟩
    omega
  have hshop : Change.create "shop" 890880 longOwner [] ∈ opening longOwner :=
    List.mem_cons_of_mem _ List.mem_cons_self
  have hok := (apply_isOk_iff hh).2 (permitted_opening howner)
  obtain ⟨⟨⟩, db', happ⟩ := fst_isOk_iff_exists.1 hok
  obtain ⟨accounts, ha⟩ := apply_ok hh happ
  refine ⟨hlength ▸ by decide, db', happ, ?_, ?_⟩
  · obtain ⟨a, -, hread⟩ := ha.account?_value hshop
    rwa [if_neg hlong] at hread
  · intro hr
    have hempty : ({} : Database).Healthy := rfl
    exact ((Deed.readable_run_iff hempty _).1 hr).2 1 _ rfl ⟨hok, _, hshop, hlong⟩

end Stake

end StakeQuorum
