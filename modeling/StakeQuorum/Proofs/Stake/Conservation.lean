import StakeQuorum.Proofs.Account.Lamports
import StakeQuorum.Proofs.Stake.Requests

/-! # Conservation of lamports

A host serves change sets, deposits and the requests of any number of ledgers in any order. What
all accounts hold together changes by the deposits that succeed, and by nothing else.
-/

namespace StakeQuorum.Stake

open Host Store
variable {κ : Type} {db db' : Database}

/-- What can be done to a database. A ledger takes part in whatever state it is, except that it
works on this database. -/
inductive Deed (κ : Type)
  | apply (caller : Bytes) (signers : List Bytes) (changes : List Change)
  | deposit (key : Bytes) (lamports : Amount)
  | serve (factories : Factories κ) (l : Ledger κ) (q : Request)

namespace Deed

/-- Nothing that a deed brings along is too long to be read back. -/
def Fits : Deed κ → Prop
  | apply _ _ changes => ∀ c ∈ changes, c.Fits
  | deposit .. => True
  | serve _ l _ => l.program.length ≤ CompactSize.maxSize

instance (d : Deed κ) : Decidable d.Fits :=
  match d with
  | apply _ _ changes => inferInstanceAs (Decidable (∀ c ∈ changes, c.Fits))
  | deposit .. => inferInstanceAs (Decidable True)
  | serve _ l _ => inferInstanceAs (Decidable (l.program.length ≤ CompactSize.maxSize))

def step (db : Database) : Deed κ → Database
  | apply caller signers changes => applied db caller signers changes
  | deposit key lamports => deposited db key lamports
  | serve factories l q => (Ledger.serve factories { l with db } q).value.2.db

/-- What a deed pays in: the amount of a deposit that succeeds. -/
def income (db : Database) : Deed κ → Nat
  | apply .. => 0
  | deposit key lamports =>
    match (Host.deposit db key lamports).value with
    | (.ok _, _) => lamports.toNat
    | (.error _, _) => 0
  | serve .. => 0

def run (db : Database) (ds : List (Deed κ)) : Database := ds.foldl step db

def incomes (db : Database) : List (Deed κ) → Nat
  | [] => 0
  | d :: ds => d.income db + incomes (d.step db) ds

theorem healthy_step (hh : db.Healthy) (d : Deed κ) : (d.step db).Healthy := by
  cases d with
  | apply caller signers changes => exact healthy_applied hh caller signers changes
  | deposit key lamports => exact healthy_deposited hh key lamports
  | serve factories l q =>
    rw [step, Ledger.serve_db]
    exact q.healthy_after hh

theorem healthy_run (hh : db.Healthy) (ds : List (Deed κ)) : (run db ds).Healthy := by
  induction ds generalizing db with
  | nil => exact hh
  | cons d ds ih => exact ih (healthy_step hh d)

theorem holdings_after (hh : db.Healthy) {program : Bytes} (q : Request)
    (hp : program.length ≤ CompactSize.maxSize) : holdings (q.after db program) = holdings db := by
  unfold Request.after
  rcases ht : (q.transact db program).value with ⟨_ | record, db'⟩
  · rw [transact_refused ht]
  · obtain ⟨signers, changes, hd, ha⟩ := transact_ok hh ht
    exact holdings_apply hh (hd.fits hp) ha

/-- A deed changes the holdings by what it pays in. -/
theorem holdings_step (hh : db.Healthy) {d : Deed κ} (hd : d.Fits) :
    holdings (d.step db) = holdings db + d.income db := by
  cases d with
  | apply caller signers changes =>
    simp only [step, applied, income]
    rcases ha : (Host.apply db caller signers changes).value with ⟨_ | _, db'⟩
    · rw [apply_refused ha]
      rfl
    · exact holdings_apply hh hd ha
  | deposit key lamports =>
    simp only [step, deposited, income]
    rcases hdep : (Host.deposit db key lamports).value with ⟨_ | _, db'⟩
    · rw [deposit_refused hdep]
      rfl
    · exact holdings_deposit hh hdep
  | serve factories l q =>
    rw [step, Ledger.serve_db, income]
    exact holdings_after hh q hd

theorem holdings_run (hh : db.Healthy) {ds : List (Deed κ)} (hds : ∀ d ∈ ds, d.Fits) :
    holdings (run db ds) = holdings db + incomes db ds := by
  induction ds generalizing db with
  | nil => rfl
  | cons d ds ih =>
    have hs := holdings_step hh (hds d List.mem_cons_self)
    have hrest := ih (healthy_step hh d) fun e he => hds e (List.mem_cons_of_mem _ he)
    calc holdings (run db (d :: ds))
        = holdings (d.step db) + incomes (d.step db) ds := hrest
      _ = holdings db + incomes db (d :: ds) := by rw [hs, incomes, Nat.add_assoc]

end Deed

/-- A change set that is applied keeps the holdings, and a run adds the deposits that succeed. -/
theorem lamports_conserved :
    (∀ (db db' : Database) (caller : Bytes) (signers : List Bytes) (changes : List Change),
      db.Healthy → (∀ c ∈ changes, c.Fits) →
        (Host.apply db caller signers changes).value = (.ok (), db') → holdings db' = holdings db) ∧
    (∀ (db : Database) (ds : List (Deed κ)), db.Healthy → (∀ d ∈ ds, d.Fits) →
      holdings (Deed.run db ds) = holdings db + Deed.incomes db ds ∧
        (totalLamports (Deed.run db ds)).value =
          UInt64.ofNat (holdings db + Deed.incomes db ds)) := by
  constructor
  · intro db db' caller signers changes hh hc h
    exact holdings_apply hh hc h
  · intro db ds hh hds
    have hrun := Deed.holdings_run hh hds
    refine ⟨hrun, ?_⟩
    rw [totalLamports_value, hrun]

def sender : Bytes := "DYw8jCTfwHNRJhhmFcbXvVDTqWMEVFBX6ZKUmG5CNSKK"

def transfer : List Change := [.update sender 200 0 none, .update "receiver" 0 200 none]

def deeds : List (Deed Unit) :=
  [.deposit [] 5, .deposit sender 30000000000, .deposit "receiver" 300,
    .apply "market" [sender] transfer,
    .serve (fun _ _ => .ok none) {} (.create sender "stake" 10000000000 0),
    .serve (fun _ _ => .ok none) {} (.withdraw "receiver" sender 1)]

theorem deeds_conserve_lamports :
    let db := deposited (deposited {} sender 700) "receiver" 300
    (∃ db', db.Healthy ∧ (∀ c ∈ transfer, c.Fits) ∧
      (Host.apply db "market" [sender] transfer).value = (.ok (), db') ∧
      holdings db' = holdings db) ∧
    ({} : Database).Healthy ∧ (∀ d ∈ deeds, d.Fits) ∧
      holdings (Deed.run {} deeds) = 30000000300 ∧
        (totalLamports (Deed.run {} deeds)).value = 30000000300 := by
  intro db
  have hh : db.Healthy := rfl
  have hc : ∀ c ∈ transfer, c.Fits := by decide
  obtain ⟨db', happ⟩ : ∃ db', (Host.apply db "market" [sender] transfer).value = (.ok (), db') :=
    ⟨_, by rfl⟩
  have hd : ∀ d ∈ deeds, d.Fits := by decide
  have hkept := (@lamports_conserved Unit).1 db db' _ _ transfer hh hc happ
  have hrun := (@lamports_conserved Unit).2 {} deeds rfl hd
  have hsum : holdings {} + Deed.incomes {} deeds = 30000000300 := by decide
  rw [hsum] at hrun
  exact ⟨⟨db', hh, hc, happ, hkept⟩, rfl, hd, hrun⟩

end StakeQuorum.Stake
