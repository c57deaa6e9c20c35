import StakeQuorum.Proofs.Account.Lamports
import StakeQuorum.Proofs.Stake.Listing

/-! # Listing and looking up

A listing walks the accounts from the first key of their name space to its end, while a lookup reads
the record under one key. Whatever else the database holds, both see the same accounts and stakes.
-/

namespace StakeQuorum.Stake

open Host Store

variable {db : Database}

/-- Accounts and stakes are listed in ascending order of their keys, and exactly those are listed
that a lookup finds. The total is the sum of the balances that lookups find, modulo `2 ^ 64`. -/
theorem listings_agree_with_lookups (hh : db.Healthy) :
    (∀ owner, (accountsOf db owner).value.Pairwise (fun a b => a.key < b.key) ∧
      ∀ a, a ∈ (accountsOf db owner).value ↔
        (account? db a.key).value = some a ∧ a.owner = owner) ∧
    (∀ program, (stakes db program).value.Pairwise (fun s t => s.1 < t.1) ∧
      ∀ key r, (key, r) ∈ (stakes db program).value ↔
        (stake? db program key).value = some r) ∧
    ∃ all : Finset Account, (∀ a, a ∈ all ↔ ∃ key, (account? db key).value = some a) ∧
      (totalLamports db).value.toNat = (∑ a ∈ all, a.lamports.toNat) % 2 ^ 64 := by
  refine ⟨?_, ?_, (accounts db).value.toFinset, ?_, ?_⟩
  · intro owner
    refine ⟨ascending_accountsOf db owner, fun a => ?_⟩
    rw [mem_accountsOf_iff, account?_value hh]
  · intro program
    refine ⟨ascending_stakes db program, fun key r => ?_⟩
    rw [mem_stakes_iff, stake?_value hh]
  · intro a
    simp only [List.mem_toFinset, mem_accounts_iff, account?_value hh]
    constructor
    · exact fun ha => ⟨a.key, ha⟩
    · rintro ⟨key, ha⟩
      rwa [(held?_eq_some ha).1]
  · rw [totalLamports_value, UInt64.toNat_ofNat', holdings_eq_sum_of_mem]
    intro a
    rw [List.mem_toFinset, mem_accounts_iff]

def pledger : Bytes := "DYw8jCTfwHNRJhhmFcbXvVDTqWMEVFBX6ZKUmG5CNSKK"

def purse (key : Bytes) (lamports : Amount) : Account := ⟨key, lamports, "system", []⟩

def pledge : Record := { owner := pledger, amount := 10000000000, active := true }

def mixedStore : Database where
  contents := ByteMap.ofList
    [("b", (purse "b" 1).encode), (accountKey [0xff], (purse [0xff] 18446744073709551615).encode),
      ([], [1]), (accountKey "stake", (Account.mk "stake" 5 "dadbs_stake" pledge.layout).encode),
      (accountKey "torn", [1, 2, 3]), (accountKey [], (purse [] 7).encode), ([0x60, 0xff], [])]

theorem listings_agree_with_lookups_mixedStore :
    mixedStore.Healthy ∧
    (accountsOf mixedStore "system").value = [purse [] 7, purse [0xff] 18446744073709551615] ∧
    (account? mixedStore []).value = some (purse [] 7) ∧
    (stakes mixedStore "dadbs_stake").value = [(("stake" : Bytes), pledge)] ∧
    (stake? mixedStore "dadbs_stake" "stake").value = some pledge ∧
    (totalLamports mixedStore).value = 11 ∧
    ∃ all : Finset Account, (∀ a, a ∈ all ↔ ∃ key, (account? mixedStore key).value = some a) ∧
      11 = (∑ a ∈ all, a.lamports.toNat) % 2 ^ 64 := by
  have hh : mixedStore.Healthy := rfl
  have hpurses : (accountsOf mixedStore "system").value =
      [purse [] 7, purse [0xff] 18446744073709551615] := by decide +kernel
  have hstakes : (stakes mixedStore "dadbs_stake").value = [(("stake" : Bytes), pledge)] := by
    decide +kernel
  have htotal : (totalLamports mixedStore).value = 11 := by decide +kernel
  obtain ⟨haccounts, hpledges, all, hall, hsum⟩ := listings_agree_with_lookups hh
  have hpurse := ((haccounts "system").2 (purse [] 7)).1 (hpurses ▸ List.mem_cons_self)
  have hpledge := ((hpledges "dadbs_stake").2 "stake" pledge).1 (hstakes ▸ List.mem_cons_self)
  rw [htotal] at hsum
  exact ⟨hh, hpurses, hpurse.1, hstakes, hpledge, htotal, all, hall, hsum⟩

end StakeQuorum.Stake
