import StakeQuorum.Proofs.Account.Changes

/-! # When a change set is applied

A database whose accesses work applies exactly the permitted change sets: each change makes an
account, no key is named twice, and what is taken is what is given and fits a word. Signatures
matter only for wallets that pay.
-/

namespace StakeQuorum

theorem Traced.bind_congr {ω α β : Type} {x : Traced ω α} {f g : α → Traced ω β}
    (h : f x.value = g x.value) : (x >>= f) = (x >>= g) := by
  show Traced.bind x f = Traced.bind x g
  simp only [Traced.bind, h]

namespace Host

open Store

variable {db : Database} {caller : Bytes} {signers signers' : List Bytes} {changes : List Change}
  {accounts : List Account} {s s' : Staging} {c : Change} {a : Account}

structure Permitted (db : Database) (caller : Bytes) (signers : List Bytes)
    (changes : List Change) : Prop where
  called : caller ≠ []
  effects : ∀ c ∈ changes, ∃ a, Effect db caller signers c a
  distinct : (changes.map (·.key)).Nodup
  balanced : (changes.map (·.taken.toNat)).sum = (changes.map (·.given.toNat)).sum
  bounded : (changes.map (·.taken.toNat)).sum < UInt64.size

theorem keys_of_effects (h : List.Forall₂ (Effect db caller signers) changes accounts) :
    changes.map (·.key) = accounts.map (·.key) := by
  induction h with
  | nil => rfl
  | cons he _ ih => rw [List.map_cons, List.map_cons, he.key_eq, ih]

/-! ### Staging what is permitted -/

theorem exists_stage (hh : db.Healthy) (he : Effect db caller signers c a)
    (hs : s.staged.get? c.key = none) (hd : s.debits.toNat + c.taken.toNat < UInt64.size)
    (hc : s.credits.toNat + c.given.toNat < UInt64.size) :
    ∃ s', (stage db caller signers s c).value = .ok s' := by
  have hfresh : s.staged.contains c.key = false := ByteMap.contains_eq_false_iff.2 hs
  rw [stage_value, hfresh]
  cases he with
  | @create key owner data lamports named owned fresh exempt =>
    have hnone : db.contains (accountKey key) = false := by
      rw [contains_accountKey hh, fresh]
      rfl
    rw [if_neg (by simpa [Change.key] using named), if_neg (by simp)]
    exact ⟨_, Staging.create_eq_ok_iff.2 ⟨owned, hnone, exempt, hc, rfl⟩⟩
  | @update key debit credit lamports newData a named found allowed covered owned balance exempt =>
    obtain rfl := (held?_eq_some found).1
    rw [if_neg (by simpa [Change.key] using named), if_neg (by simp)]
    simp only [account?_value hh, found]
    have hle : debit ≤ a.lamports := UInt64.le_iff_toNat_le.2 covered
    have hsub : (a.lamports - debit).toNat = a.lamports.toNat - debit.toNat :=
      UInt64.toNat_sub_of_le _ _ hle
    have hfit : (a.lamports - debit).toNat + credit.toNat < UInt64.size := by
      have hl : lamports.toNat < UInt64.size := lamports.toNat_lt
      omega
    have hleft : a.lamports - debit + credit = lamports := by
      rw [← UInt64.toNat_inj, Amount.toNat_add_of_lt hfit]
      omega
    refine ⟨_, Staging.update_eq_ok_iff.2 ⟨?_, owned, hd, hc, hfit, hleft ▸ exempt, rfl⟩⟩
    by_cases h0 : debit = 0
    · exact .inl h0
    · exact .inr ⟨allowed h0, hle⟩

theorem exists_stageAll (hh : db.Healthy) (he : ∀ c ∈ changes, ∃ a, Effect db caller signers c a)
    (hk : (changes.map (·.key)).Nodup) (hs : ∀ c ∈ changes, s.staged.get? c.key = none)
    (hd : s.debits.toNat + (changes.map (·.taken.toNat)).sum < UInt64.size)
    (hc : s.credits.toNat + (changes.map (·.given.toNat)).sum < UInt64.size) :
    ∃ s', (stageAll db caller signers changes s).value = .ok s' := by
  induction changes generalizing s with
  | nil => exact ⟨s, rfl⟩
  | cons c cs ih =>
    obtain ⟨⟨a, ha⟩, he⟩ := List.forall_mem_cons.1 he
    obtain ⟨hfirst, hs⟩ := List.forall_mem_cons.1 hs
    rw [List.map_cons, List.nodup_cons] at hk
    rw [List.map_cons, List.sum_cons] at hd hc
    obtain ⟨t, ht⟩ := exists_stage hh ha hfirst (by omega) (by omega)
    obtain ⟨b, -, -, hstaged, hdebits, hcredits⟩ := stage_ok hh ht
    simp only [stageAll, Traced.value_bind, ht]
    refine ih he hk.2 ?_ (by omega) (by omega)
    intro d hmem
    have hne : ¬ c.key = d.key := fun h => hk.1 (List.mem_map.2 ⟨d, hmem, h.symm⟩)
    rw [hstaged, ByteMap.get?_insert, if_neg hne]
    exact hs d hmem

/-- A change set is applied exactly when it is permitted. -/
theorem apply_isOk_iff (hh : db.Healthy) :
    (apply db caller signers changes).value.1.isOk ↔ Permitted db caller signers changes := by
  constructor
  · intro hok
    obtain ⟨⟨⟩, db', h⟩ := fst_isOk_iff_exists.1 hok
    obtain ⟨accounts, ha⟩ := apply_ok hh h
    refine ⟨?_, ?_, ?_, ha.balanced, ?_⟩
    · rintro rfl
      simp [apply_value] at h
    · intro c hc
      obtain ⟨a, -, he⟩ := exists_of_forall₂_left ha.effects hc
      exact ⟨a, he⟩
    · rw [keys_of_effects ha.effects]
      exact ha.distinct
    · by_cases hn : changes = []
      · subst hn
        decide
      · obtain ⟨s, hs, -, -, -⟩ := write_of_apply_ok hn h
        obtain ⟨_, hst⟩ := stageAll_ok hh hs
        have hsum : s.debits.toNat = 0 + (changes.map (·.taken.toNat)).sum := hst.debits
        have hlt : s.debits.toNat < UInt64.size := s.debits.toNat_lt
        omega
  · intro hp
    rw [apply_value, if_neg (by simpa using hp.called)]
    by_cases hn : changes.isEmpty = true
    · rw [if_pos hn]
      rfl
    · have hbound := hp.bounded
      have hbalance := hp.balanced
      obtain ⟨s, hs⟩ := exists_stageAll (s := {}) hh hp.effects hp.distinct (fun _ _ => rfl)
        (by simpa using hbound) (by simpa [← hbalance] using hbound)
      obtain ⟨_, hst⟩ := stageAll_ok hh hs
      have hequal : s.debits = s.credits := by
        rw [← UInt64.toNat_inj, hst.debits, hst.credits, hp.balanced]
      rw [if_neg hn, hs]
      simp only [hequal, ne_eq, not_true_eq_false, if_false, Database.write_of_healthy hh]
      rfl

/-! ### Signatures -/

theorem account?_key {key : Bytes} (h : (account? db key).value = some a) : a.key = key := by
  unfold account? at h
  split at h
  · simp only at h
    split at h <;> simp at h
  · split at h
    · rename_i hd
      obtain rfl := Option.some.inj h
      exact (Account.decode?_eq_some hd).1
    · simp at h

/-- A change finds the same signature among both signers, or needs none. -/
def SignedAlike (db : Database) (caller : Bytes) (signers signers' : List Bytes) (c : Change) :
    Prop :=
  c.taken = 0 ∨ (c.key ∈ signers ↔ c.key ∈ signers') ∨
    ∀ a, (account? db c.key).value = some a → a.owner = caller

theorem Staging.checkDebit_congr {debit : Amount} (h : debit = 0 ∨
    (a.key ∈ signers ↔ a.key ∈ signers') ∨ a.owner = caller) :
    checkDebit caller signers a debit = checkDebit caller signers' a debit := by
  unfold checkDebit
  rcases h with h | h | h <;> simp [h]

theorem stage_congr (h : SignedAlike db caller signers signers' c) (s : Staging) :
    stage db caller signers s c = stage db caller signers' s c := by
  cases c with
  | create => rfl
  | update key debit credit newData =>
    unfold stage
    split
    · rfl
    split
    · rfl
    refine Traced.bind_congr ?_
    cases hx : (account? db key).value with
    | none => rfl
    | some a =>
      have hkey := account?_key hx
      have hcheck : Staging.checkDebit caller signers a debit =
          Staging.checkDebit caller signers' a debit :=
        Staging.checkDebit_congr (hkey ▸ h.imp_right (Or.imp_right fun ho => ho a hx))
      simp only [Staging.update, hcheck]

theorem stageAll_congr (h : ∀ c ∈ changes, SignedAlike db caller signers signers' c)
    (s : Staging) :
    stageAll db caller signers changes s = stageAll db caller signers' changes s := by
  induction changes generalizing s with
  | nil => rfl
  | cons c cs ih =>
    obtain ⟨hc, hcs⟩ := List.forall_mem_cons.1 h
    rw [stageAll, stageAll, stage_congr hc]
    refine Traced.bind_congr ?_
    cases (stage db caller signers' s c).value with
    | error e => rfl
    | ok t => exact ih hcs t

theorem apply_congr (h : ∀ c ∈ changes, SignedAlike db caller signers signers' c) :
    apply db caller signers changes = apply db caller signers' changes := by
  unfold apply
  rw [stageAll_congr h]

end Host

end StakeQuorum
