import StakeQuorum.Proofs.Account.Changes

/-! # Who may change an account

An applied change set respects who owns what. No account changes its owner, only the owner rewrites
data, and only the owner or a wallet that signed pays. Whatever is not named stays, and so does
whatever cannot be read.
-/

namespace StakeQuorum.Host

open Store

variable {db db' : Database} {caller : Bytes} {signers : List Bytes} {changes : List Change}
  {accounts : List Account} {c : Change} {a b : Account} {key record : Bytes}

namespace Effect

/-- A change keeps the owner of an account, and needs authority for its data and its balance. -/
theorem authorized (h : Effect db caller signers c b) (hf : held? db c.key = some a) :
    b.owner = a.owner ∧ (b.data ≠ a.data → a.owner = caller) ∧
      (b.lamports < a.lamports →
        a.owner = caller ∨ a.owner = Account.systemProgram ∧ c.key ∈ signers) := by
  cases h with
  | create _ _ fresh => simp [held?, Change.key, fresh] at hf
  | @update key debit credit lamports newData a' _ found allowed _ owned balance =>
    obtain rfl : a' = a := Option.some.inj (found.symm.trans hf)
    refine ⟨rfl, ?_, ?_⟩
    · intro hd
      cases newData with
      | none => exact absurd rfl hd
      | some data => exact owned rfl
    · intro hl
      have hl : lamports.toNat < a'.lamports.toNat := UInt64.lt_iff_toNat_lt.1 hl
      refine allowed ?_
      rintro rfl
      simp only [UInt64.toNat_zero] at balance
      omega

theorem exists_held? (h : Effect db caller signers c b) (hr : record? db c.key = some record) :
    ∃ a, held? db c.key = some a := by
  cases h with
  | create _ _ fresh => simp [Change.key, fresh] at hr
  | update _ found => exact ⟨_, found⟩

theorem eq_create (h : Effect db caller signers c b) (hr : record? db c.key = none) :
    c = .create b.key b.lamports b.owner b.data ∧ Account.rentFor b.data ≤ b.lamports := by
  cases h with
  | create _ _ _ exempt => exact ⟨rfl, exempt⟩
  | update _ found => simp [held?, Change.key] at hr found; simp [hr] at found

end Effect

namespace Applied

theorem authorized (h : Applied db caller signers changes accounts db')
    (hfit : ∀ c ∈ changes, c.Fits) (ha : Host.held? db key = some a) :
    ∃ b, Host.held? db' key = some b ∧ b.owner = a.owner ∧ (b.data ≠ a.data → a.owner = caller) ∧
      (b.lamports < a.lamports →
        a.owner = caller ∨ a.owner = Account.systemProgram ∧ key ∈ signers) := by
  rcases h.record?_cases key with hr | ⟨c, hc, b, hb, he, rfl, hr⟩
  · refine ⟨a, by rwa [Host.held?, hr], rfl, fun hd => absurd rfl hd, ?_⟩
    exact fun hl => absurd hl (UInt64.lt_irrefl _)
  · rw [he.key_eq] at ha ⊢
    exact ⟨b, he.key_eq ▸ h.held? hb (he.fits (hfit c hc)), he.authorized ha⟩

theorem record?_of_unreadable (h : Applied db caller signers changes accounts db')
    (hr : record? db key = some record) (hn : Host.held? db key = none) :
    record? db' key = some record := by
  rcases h.record?_cases key with hk | ⟨c, -, b, -, he, rfl, -⟩
  · exact hk.trans hr
  · rw [he.key_eq] at hr hn
    obtain ⟨a, ha⟩ := he.exists_held? hr
    rw [hn] at ha
    exact absurd ha (by simp)

theorem created (h : Applied db caller signers changes accounts db')
    (hfit : ∀ c ∈ changes, c.Fits) (hn : record? db key = none)
    (hs : record? db' key = some record) : ∃ b, .create key b.lamports b.owner b.data ∈ changes ∧
      Account.rentFor b.data ≤ b.lamports ∧ Host.held? db' key = some b := by
  rcases h.record?_cases key with hk | ⟨c, hc, b, hb, he, rfl, hr⟩
  · rw [hk, hn] at hs
    exact absurd hs (by simp)
  · rw [he.key_eq] at hn
    obtain ⟨rfl, hl⟩ := he.eq_create hn
    exact ⟨b, hc, hl, h.held? hb (he.fits (hfit _ hc))⟩

end Applied

/-- An applied change set respects the authority over every account. -/
theorem apply_respects_authority (hh : db.Healthy) (hfit : ∀ c ∈ changes, c.Fits)
    (h : (apply db caller signers changes).value = (.ok (), db')) :
    (∀ key a, (account? db key).value = some a → ∃ b, (account? db' key).value = some b ∧
      b.owner = a.owner ∧ (b.data ≠ a.data → a.owner = caller) ∧
      (b.lamports < a.lamports →
        a.owner = caller ∨ a.owner = Account.systemProgram ∧ key ∈ signers)) ∧
    (∀ key record, db.contents.get? (accountKey key) = some record →
      (account? db key).value = none → db'.contents.get? (accountKey key) = some record) ∧
    (∀ k, (∀ c ∈ changes, accountKey c.key ≠ k) → db'.contents.get? k = db.contents.get? k) ∧
    (∀ key record, db.contents.get? (accountKey key) = none →
      db'.contents.get? (accountKey key) = some record →
        ∃ b, .create key b.lamports b.owner b.data ∈ changes ∧
          Account.rentFor b.data ≤ b.lamports ∧ (account? db' key).value = some b) := by
  obtain ⟨accounts, ha⟩ := apply_ok hh h
  simp only [account?_value hh, account?_value ha.healthy]
  refine ⟨?_, ?_, ?_, ?_⟩
  · intro key a hk
    exact ha.authorized hfit hk
  · intro key record hr hn
    exact ha.record?_of_unreadable hr hn
  · intro k hk
    refine ha.kept k ?_
    intro a hm hak
    obtain ⟨c, hc, he⟩ := exists_of_forall₂_right ha.effects hm
    exact hk c hc (he.key_eq ▸ hak)
  · intro key record hn hs
    exact ha.created hfit hn hs

def purchase : List Change :=
  [.update "wallet" 905000 0 none, .create "ticket" 905000 "market" [1, 2]]

theorem purchase_respects_authority :
    let db := deposited {} "wallet" 2000000
    db.Healthy ∧ (∀ c ∈ purchase, c.Fits) ∧ ∃ db',
      (apply db "market" ["wallet"] purchase).value = (.ok (), db') ∧
      (∃ b, (account? db' "wallet").value = some b ∧
        b.owner = Account.systemProgram ∧ b.data = []) ∧
      ∃ b, .create "ticket" b.lamports b.owner b.data ∈ purchase ∧
        Account.rentFor b.data ≤ b.lamports ∧ (account? db' "ticket").value = some b := by
  intro db
  have hh : db.Healthy := rfl
  have hfit : ∀ c ∈ purchase, c.Fits := by decide
  obtain ⟨db', happ⟩ : ∃ db', (apply db "market" ["wallet"] purchase).value = (.ok (), db') :=
    ⟨_, by rfl⟩
  obtain ⟨record, hr⟩ : ∃ record, db'.contents.get? (accountKey "ticket") = some record := by
    cases happ
    exact ⟨_, by rfl⟩
  obtain ⟨hkeep, -, -, hnew⟩ := apply_respects_authority hh hfit happ
  refine ⟨hh, hfit, db', happ, ?_, hnew "ticket" record (by rfl) hr⟩
  obtain ⟨b, hb, ho, hd, -⟩ := hkeep "wallet" _ (by rfl)
  refine ⟨b, hb, ho, ?_⟩
  by_contra hne
  exact absurd (hd hne) (by decide)

end StakeQuorum.Host
