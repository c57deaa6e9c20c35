import StakeQuorum.Proofs.Account.Acceptance
import StakeQuorum.Proofs.Runs
import StakeQuorum.Proofs.Stake.Conservation

/-! # Rent

A change set keeps every account with data either empty of lamports or above its rent. A deposit
does not look at the rent of the account it funds, and a run keeps the rent of all accounts exactly
when no deposit pays too little to an account that was emptied.
-/

namespace StakeQuorum

open Host Store
variable {κ : Type} {db db' : Database} {caller : Bytes} {signers : List Bytes}
  {changes : List Change} {accounts : List Account} {c : Change} {a : Account} {key : Bytes}
  {lamports : Amount}

/-- An account without data needs no rent, and neither does one that is given up. -/
def Account.Exempt (a : Account) : Prop :=
  a.data = [] ∨ a.lamports = 0 ∨ rentFor a.data ≤ a.lamports

instance (a : Account) : Decidable a.Exempt := inferInstanceAs (Decidable (_ ∨ _ ∨ _))

/-- An account that holds something has paid its rent, and needs no more of it. -/
theorem Account.Exempt.credit (h : a.Exempt) (hz : a.lamports ≠ 0)
    (bounded : a.lamports.toNat + lamports.toNat < UInt64.size) :
    Exempt { a with lamports := a.lamports + lamports } := by
  rcases h with hdata | hzero | hrent
  · exact .inl hdata
  · exact absurd hzero hz
  · right; right
    rw [UInt64.le_iff_toNat_le] at hrent ⊢
    rw [Amount.toNat_add_of_lt bounded]
    exact Nat.le_add_right_of_le hrent

namespace Host

/-- Every account that can be read pays its rent. -/
def RentExempt (db : Database) : Prop := ∀ key, ∀ a ∈ (account? db key).value, a.Exempt

theorem rentExempt_iff (hh : db.Healthy) :
    RentExempt db ↔ ∀ key a, held? db key = some a → a.Exempt := by
  simp only [RentExempt, account?_value hh, Option.mem_def]

theorem Effect.exempt (h : Effect db caller signers c a) : a.Exempt := by
  cases h with
  | create _ _ _ exempt => exact .inr (.inr exempt)
  | update _ _ _ _ _ _ exempt => exact exempt

theorem Applied.rentExempt (h : Applied db caller signers changes accounts db')
    (hh : db.Healthy) (hr : RentExempt db) : RentExempt db' := by
  rw [rentExempt_iff h.healthy]
  rw [rentExempt_iff hh] at hr
  intro key a ha
  rcases h.held?_cases ha with hold | ⟨c, -, he, -⟩
  · exact hr key a hold
  · exact he.exempt

theorem RentExempt.applied (hr : RentExempt db) (hh : db.Healthy) (caller : Bytes)
    (signers : List Bytes) (changes : List Change) :
    RentExempt (applied db caller signers changes) := by
  unfold Host.applied
  rcases h : (apply db caller signers changes).value with ⟨_ | _, db'⟩
  · rwa [apply_refused h]
  · obtain ⟨accounts, ha⟩ := apply_ok hh h
    exact ha.rentExempt hh hr

/-- A deposit pays an account that was emptied less than the rent of its data. -/
def Underfunds (db : Database) (key : Bytes) (lamports : Amount) : Prop :=
  key ≠ [] ∧ ∃ a ∈ (account? db key).value,
    a.data ≠ [] ∧ a.lamports = 0 ∧ lamports ≠ 0 ∧ lamports < Account.rentFor a.data

instance (db : Database) (key : Bytes) (lamports : Amount) :
    Decidable (Underfunds db key lamports) :=
  inferInstanceAs (Decidable (_ ∧ _))

theorem deposited_of_held (hh : db.Healthy) (hk : key ≠ []) (found : held? db key = some a)
    (bounded : a.lamports.toNat + lamports.toNat < UInt64.size) : deposited db key lamports =
      { db with
        contents := db.contents.insert (accountKey key)
          (Account.encode { a with lamports := a.lamports + lamports }) } := by
  have hcredited : credited db key lamports (some a) =
      .ok { a with lamports := a.lamports + lamports } := by
    rw [credited, Amount.addOverflows_eq_false_iff.2 bounded, if_neg Bool.false_ne_true]
  rw [deposited, deposit_value, if_neg (by simpa using hk), account?_value hh, found, hcredited]
  simp only [Database.put_of_healthy hh]

theorem not_rentExempt_of_underfunds (hh : db.Healthy) (hu : Underfunds db key lamports) :
    ¬ RentExempt (deposited db key lamports) := by
  rw [rentExempt_iff (healthy_deposited hh key lamports)]
  obtain ⟨hk, a, found, hdata, hzero, hpaid, hlow⟩ := hu
  rw [account?_value hh] at found
  have hfits : ({ a with lamports } : Account).Fits := (held?_eq_some found).2
  have hnew : held? (deposited db key lamports) key = some { a with lamports } := by
    rw [deposited_of_held hh hk found (by simpa [hzero] using UInt64.toNat_lt lamports), hzero,
      UInt64.zero_add, held?, record?_insert, if_pos rfl, Option.bind_some,
      ← (held?_eq_some found).1]
    exact Account.decode?_encode hfits
  intro hr
  rcases hr key _ hnew with he | he | he
  · exact hdata he
  · exact hpaid he
  · exact UInt64.not_le.2 hlow he

theorem RentExempt.deposited (hr : RentExempt db) (hh : db.Healthy)
    (hn : ¬ Underfunds db key lamports) : RentExempt (deposited db key lamports) := by
  rw [rentExempt_iff (healthy_deposited hh key lamports)]
  rw [rentExempt_iff hh] at hr
  rw [Underfunds, account?_value hh] at hn
  unfold Host.deposited
  rcases hd : (deposit db key lamports).value with ⟨_ | _, db'⟩
  · rwa [deposit_refused hd]
  · have hk : key ≠ [] := by
      rintro rfl
      simp [deposit_value] at hd
    obtain ⟨a, hc, rfl⟩ := deposit_ok hh hd
    intro k b hb
    rcases hc.held?_cases hb with hold | rfl
    · exact hr k b hold
    · cases hc with
      | wallet => exact .inl rfl
      | @more old found bounded =>
        by_cases hzero : old.lamports = 0
        · -- nothing but the deposit is there to pay the rent
          by_contra hne
          simp only [Account.Exempt, hzero, UInt64.zero_add, not_or, UInt64.not_le] at hne
          exact hn ⟨hk, old, found, hne.1, hzero, hne.2.1, hne.2.2⟩
        · exact (hr key old found).credit hzero bounded

end Host

namespace Stake

theorem Request.after_eq (hh : db.Healthy) (q : Request) (program : Bytes) :
    q.after db program = db ∨
      ∃ signers changes, q.after db program = applied db program signers changes := by
  unfold Request.after
  rcases h : (q.transact db program).value with ⟨_ | record, db'⟩
  · exact .inl (transact_refused h)
  · obtain ⟨signers, changes, -, happ⟩ := transact_ok hh h
    exact .inr ⟨signers, changes, by rw [applied, happ]⟩

namespace Deed

/-- A deed pays an account that was emptied less than the rent of its data. -/
def Underfunds (db : Database) : Deed κ → Prop
  | apply .. => False
  | deposit key lamports => Host.Underfunds db key lamports
  | serve .. => False

instance (db : Database) (d : Deed κ) : Decidable (d.Underfunds db) :=
  match d with
  | apply .. => inferInstanceAs (Decidable False)
  | deposit key lamports => inferInstanceAs (Decidable (Host.Underfunds db key lamports))
  | serve .. => inferInstanceAs (Decidable False)

theorem rentExempt_step_iff (hh : db.Healthy) (hr : RentExempt db) (d : Deed κ) :
    RentExempt (d.step db) ↔ ¬ d.Underfunds db := by
  cases d with
  | apply caller signers changes => exact iff_of_true (hr.applied hh caller signers changes) id
  | deposit key lamports =>
    exact ⟨fun hafter hu => not_rentExempt_of_underfunds hh hu hafter, hr.deposited hh⟩
  | serve factories l q =>
    refine iff_of_true ?_ id
    rw [step, Ledger.serve_db]
    obtain h | ⟨signers, changes, h⟩ := q.after_eq hh l.program
    · rw [h]
      exact hr
    · rw [h]
      exact hr.applied hh l.program signers changes

end Deed

theorem rentExempt_empty : RentExempt {} := by
  have hh : ({} : Database).Healthy := rfl
  rw [rentExempt_iff hh]
  intro key a ha
  have hnone : (none : Option Account) = some a := ha
  cases hnone

/-- All accounts pay their rent all along a run exactly when no deposit of it pays an account
that was emptied less than the rent. Such a deposit succeeds. -/
theorem rentExempt_iff_not_underfunds (ds : List (Deed κ)) :
    (∀ n, RentExempt (Deed.run {} (ds.take n))) ↔
      ∀ n (d : Deed κ), ds[n]? = some d → ¬ d.Underfunds (Deed.run {} (ds.take n)) := by
  have hstep (db : Database) (d : Deed κ) (hh : db.Healthy) (hr : RentExempt db) :=
    Deed.rentExempt_step_iff hh hr d
  have hh : ({} : Database).Healthy := rfl
  exact forall_foldl_take_iff (fun _ d hh => Deed.healthy_step hh d) hstep hh rentExempt_empty ds

def reopening (lamports : Amount) : List (Deed Unit) :=
  [.deposit "payer" 2000000,
    .apply "market" ["payer"] [.update "payer" 897840 0 none, .create "shop" 897840 "market" [7]],
    .apply "market" [] [.update "shop" 897840 0 none, .update "payer" 0 897840 none],
    .deposit "shop" lamports]

theorem rentExempt_reopening : ∀ n, RentExempt (Deed.run {} ((reopening 897840).take n)) := by
  refine (rentExempt_iff_not_underfunds _).2 ?_
  intro n d hd
  rcases n with _ | _ | _ | _ | n
  · obtain rfl := Option.some.inj hd
    decide
  · obtain rfl := Option.some.inj hd
    decide
  · obtain rfl := Option.some.inj hd
    decide
  · obtain rfl := Option.some.inj hd
    decide
  · simp [reopening] at hd

/-- A single lamport is less than the rent of one byte. -/
theorem not_rentExempt_reopening : ¬ RentExempt (Deed.run {} (reopening 1)) := by
  intro hr
  have hlow : Account.Exempt _ := hr "shop" _ (by rfl)
  exact absurd hlow (by decide)

end Stake

end StakeQuorum
