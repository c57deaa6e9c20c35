import StakeQuorum.Proofs.Address.Grammar
import StakeQuorum.Proofs.Store.Contents
import StakeQuorum.Validator.Following

/-! # Who the validators are

A set that is rebuilt from stakes lists the owners whose active stakes reach the minimum, each with
the sum of them, cut at the greatest amount. It depends neither on the order of the stakes nor on
the set before, and a rebuild of stakes of external addresses fails exactly when no client can be
made for an owner who becomes a member.
-/

namespace StakeQuorum

/-- The greatest amount that is not above a total. -/
def Amount.ofTotal (n : Nat) : Amount := UInt64.ofNat (min n (UInt64.size - 1))

namespace Amount

theorem toNat_ofTotal (n : Nat) : (ofTotal n).toNat = min n (UInt64.size - 1) :=
  UInt64.toNat_ofNat_of_lt (by rw [UInt64.size]; omega)

theorem saturatingAdd_ofTotal (n : Nat) (b : Amount) :
    saturatingAdd (ofTotal n) b = ofTotal (n + b.toNat) := by
  have hn := toNat_ofTotal n
  have hb := b.toNat_lt
  rw [← UInt64.toNat_inj, toNat_ofTotal, saturatingAdd]
  by_cases ho : addOverflows (ofTotal n) b = true
  · have hmax : max.toNat = UInt64.size - 1 := by decide
    have hover := (addOverflows_iff _ _).1 ho
    rw [if_pos ho, hmax]
    simp only [UInt64.size] at *
    omega
  · have hfit := mt (addOverflows_iff _ _).2 ho
    rw [if_neg ho, UInt64.toNat_add]
    simp only [UInt64.size] at *
    omega

end Amount

theorem Address.derive_of_isExternal {s : Bytes} (h : isExternal s = true) :
    ∃ internal, derive s = .ok internal := exists_derive_iff.2 h

namespace ValidatorSet

variable {κ : Type} {factory : Option (ClientFactory κ)} {minimum : Amount}
  {old new set : ValidatorSet κ} {stakes : Stakes} {o : Bytes} {v : Validator κ}

/-! ### Totals -/

def activeOf (stakes : Stakes) (o : Bytes) : Stakes :=
  stakes.filter fun s => s.2.active && s.2.owner == o

def activeSum (stakes : Stakes) (o : Bytes) : Nat :=
  ((activeOf stakes o).map (·.2.amount.toNat)).sum

/-- The active stakes of an owner reach the minimum. -/
def Qualifies (minimum : Amount) (stakes : Stakes) (o : Bytes) : Prop :=
  activeOf stakes o ≠ [] ∧ minimum ≤ Amount.ofTotal (activeSum stakes o)

theorem activeOf_ne_nil_iff :
    activeOf stakes o ≠ [] ↔ ∃ s ∈ stakes, s.2.active = true ∧ s.2.owner = o := by
  rw [ne_eq, activeOf, List.filter_eq_nil_iff]
  simp

theorem get?_ownerTotals (stakes : Stakes) (o : Bytes) : (ownerTotals stakes).get? o =
    if activeOf stakes o = [] then none else some (Amount.ofTotal (activeSum stakes o)) := by
  induction stakes using List.reverseRecOn with
  | nil => rfl
  | append_singleton stakes s ih =>
    have htotal : ((ownerTotals stakes).get? o).getD 0 = Amount.ofTotal (activeSum stakes o) := by
      rw [ih]
      split
      · rename_i hnone
        rw [activeSum, hnone]
        rfl
      · rfl
    have hlast : ownerTotals (stakes ++ [s]) = if s.2.active then
        (ownerTotals stakes).insert s.2.owner
          (Amount.saturatingAdd (((ownerTotals stakes).get? s.2.owner).getD 0) s.2.amount)
        else ownerTotals stakes := by
      rw [ownerTotals, List.foldl_append]
      rfl
    rw [hlast]
    by_cases hs : (s.2.active && s.2.owner == o) = true
    · obtain ⟨hactive, howner⟩ : s.2.active = true ∧ s.2.owner = o := by simpa using hs
      have hmore : activeOf (stakes ++ [s]) o = activeOf stakes o ++ [s] := by
        simp [activeOf, hactive, howner]
      rw [if_pos hactive, ByteMap.get?_insert, if_pos howner, howner, htotal,
        Amount.saturatingAdd_ofTotal, activeSum, activeSum, hmore]
      simp
    · have hsame : activeOf (stakes ++ [s]) o = activeOf stakes o := by
        simpa [activeOf] using hs
      rw [activeSum, hsame, ← activeSum, ← ih]
      split
      · rename_i hactive
        rw [ByteMap.get?_insert, if_neg]
        intro howner
        simp [hactive, howner] at hs
      · rfl

theorem mem_ownerTotals_iff {total : Amount} : (o, total) ∈ (ownerTotals stakes).entries ↔
    activeOf stakes o ≠ [] ∧ total = Amount.ofTotal (activeSum stakes o) := by
  rw [ByteMap.mem_entries_iff, get?_ownerTotals]
  by_cases hnone : activeOf stakes o = [] <;> simp [hnone, eq_comm]

/-! ### Members -/

/-- The validator that an owner with this total becomes. -/
structure Admits (factory : Option (ClientFactory κ)) (minimum : Amount) (old : ValidatorSet κ)
    (o : Bytes) (total : Amount) (v : Validator κ) : Prop where
  reaches : minimum ≤ total
  identity : v.identity = o
  internal : Address.derive o = .ok v.internal
  stake : v.stake = total
  client : (clientFor factory old o).value = .ok v.client

theorem Admits.unique {total : Amount} {v' : Validator κ}
    (h : Admits factory minimum old o total v) (h' : Admits factory minimum old o total v') :
    v' = v := by
  have hidentity := h'.identity.trans h.identity.symm
  have hinternal := Except.ok.inj (h'.internal.symm.trans h.internal)
  have hstake := h'.stake.trans h.stake.symm
  have hclient := Except.ok.inj (h'.client.symm.trans h.client)
  cases v
  cases v'
  simp only [Validator.mk.injEq]
  exact ⟨hidentity, hinternal, hstake, hclient⟩

theorem rebuild_cons_ok {total : Amount} {es : List (Bytes × Amount)}
    (h : (rebuild factory minimum old ((o, total) :: es) new).value = .ok set) :
    (total < minimum ∧ (rebuild factory minimum old es new).value = .ok set) ∨
      ∃ v, Admits factory minimum old o total v ∧
        (rebuild factory minimum old es (new.insert o v)).value = .ok set := by
  unfold rebuild at h
  split at h
  · exact .inl ⟨‹_›, h⟩
  · rename_i hmin
    right
    cases hd : Address.derive o with
    | error e => simp [hd] at h
    | ok internal =>
      simp only [hd, Traced.value_bind] at h
      cases hc : (clientFor factory old o).value with
      | error f => simp [hc] at h
      | ok client =>
        simp only [hc] at h
        exact ⟨_, ⟨UInt64.not_lt.1 hmin, rfl, hd, rfl, hc⟩, h⟩

theorem exists_admits {es : List (Bytes × Amount)} {total : Amount}
    (h : (rebuild factory minimum old es new).value = .ok set) (hm : (o, total) ∈ es)
    (hmin : minimum ≤ total) : ∃ v, Admits factory minimum old o total v := by
  induction es generalizing new with
  | nil => simp at hm
  | cons e es ih =>
    obtain ⟨o', total'⟩ := e
    rcases rebuild_cons_ok h with ⟨hlow, h⟩ | ⟨v, hv, h⟩
    · rcases List.mem_cons.1 hm with heq | hm
      · obtain ⟨rfl, rfl⟩ := Prod.mk.inj heq
        exact absurd hlow (UInt64.not_lt.2 hmin)
      · exact ih h hm
    · rcases List.mem_cons.1 hm with heq | hm
      · obtain ⟨rfl, rfl⟩ := Prod.mk.inj heq
        exact ⟨v, hv⟩
      · exact ih h hm

theorem rebuild_ok {es : List (Bytes × Amount)} (hes : Ascending es)
    (h : (rebuild factory minimum old es new).value = .ok set) :
    set.get? o = some v ↔ (∃ total, (o, total) ∈ es ∧ Admits factory minimum old o total v) ∨
      (∀ total, (o, total) ∈ es → total < minimum) ∧ new.get? o = some v := by
  induction es generalizing new with
  | nil =>
    obtain rfl : new = set := Except.ok.inj h
    simp
  | cons e es ih =>
    obtain ⟨o', total'⟩ := e
    obtain ⟨hfirst, hes⟩ := List.pairwise_cons.1 hes
    -- no later entry names the first owner again, so that nothing replaces its validator
    have hgone : ∀ total, (o', total) ∉ es :=
      fun total hm => List.lt_irrefl o' (hfirst (o', total) hm)
    rcases rebuild_cons_ok h with ⟨hlow, h⟩ | ⟨v', hv', h⟩
    · rw [ih hes h]
      by_cases ho : o = o'
      · subst ho
        have hnot : ¬ Admits factory minimum old o total' v :=
          fun ha => UInt64.not_lt.2 ha.reaches hlow
        simp [hgone, hlow, hnot]
      · simp [ho]
    · rw [ih hes h, ByteMap.get?_insert]
      by_cases ho : o = o'
      · subst ho
        have hv : Admits factory minimum old o total' v ↔ v' = v :=
          ⟨fun ha => ha.unique hv', fun heq => heq ▸ hv'⟩
        have hhigh : ¬ total' < minimum := UInt64.not_lt.2 hv'.reaches
        simp [hgone, hv, hhigh]
      · simp [ho, Ne.symm ho]

/-! ### Failures -/

/-- The factory makes a client, or none, for everybody. -/
def Steady (make : ClientFactory κ) : Prop := ∀ o, ∃ client, make o = .ok client

/-- The factory fails for an owner who is not a member. -/
def Fails (factory : Option (ClientFactory κ)) (old : ValidatorSet κ) (o : Bytes) : Prop :=
  old.get? o = none ∧ ∃ make ∈ factory, ∃ f, make o = .error f

theorem Steady.not_fails (hf : ∀ make ∈ factory, Steady make) : ¬ Fails factory old o := by
  rintro ⟨-, make, hm, f, he⟩
  obtain ⟨client, hok⟩ := hf make hm o
  exact absurd (he.symm.trans hok) (by simp)

theorem clientFor_cases (factory : Option (ClientFactory κ)) (old : ValidatorSet κ) (o : Bytes) :
    (Fails factory old o ∧ ∃ f, (clientFor factory old o).value = .error f) ∨
      (¬ Fails factory old o ∧ ∃ client, (clientFor factory old o).value = .ok client) := by
  unfold clientFor
  cases ho : old.get? o with
  | some v => exact .inr ⟨fun h => absurd (h.1.symm.trans ho) (by simp), v.client, rfl⟩
  | none =>
    cases factory with
    | none => exact .inr ⟨by simp [Fails], none, rfl⟩
    | some make =>
      cases hm : make o with
      | error f => exact .inl ⟨⟨ho, make, rfl, f, hm⟩, f, hm⟩
      | ok client => exact .inr ⟨by simp [Fails, hm], client, hm⟩

theorem rebuild_error_iff {es : List (Bytes × Amount)}
    (hes : ∀ e ∈ es, Address.isExternal e.1 = true) :
    (∃ f, (rebuild factory minimum old es new).value = .error f) ↔
      ∃ e ∈ es, minimum ≤ e.2 ∧ Fails factory old e.1 := by
  induction es generalizing new with
  | nil => simp [rebuild]
  | cons e es ih =>
    obtain ⟨o, total⟩ := e
    obtain ⟨ho, hes⟩ := List.forall_mem_cons.1 hes
    obtain ⟨internal, hd⟩ := Address.derive_of_isExternal ho
    rw [List.exists_mem_cons_iff, rebuild]
    by_cases hlow : total < minimum
    · rw [if_pos hlow, ih hes, or_iff_right]
      rintro ⟨hreach, -⟩
      exact UInt64.not_lt.2 hreach hlow
    rw [if_neg hlow]
    have hreach : minimum ≤ total := UInt64.not_lt.1 hlow
    rcases clientFor_cases factory old o with ⟨hfails, f, hc⟩ | ⟨hnot, client, hc⟩
    · simp [hd, hc, hreach, hfails]
    · simp only [hd, Traced.value_bind, hc]
      rw [ih hes, or_iff_right]
      exact fun h => hnot h.2

theorem refresh_value (factory : Option (ClientFactory κ)) (minimum : Amount)
    (old : ValidatorSet κ) (stakes : Stakes) : (refresh factory minimum old stakes).value =
      (rebuild factory minimum old (ownerTotals stakes).entries {}).value := by
  unfold refresh
  rw [Traced.value_bind]
  cases (rebuild factory minimum old (ownerTotals stakes).entries {}).value with
  | error f => rfl
  | ok new =>
    simp only
    split <;> rfl

/-! ### The set as a function of the stakes -/

/-- A set lists, in ascending order, the owners of active stakes whose totals reach the minimum. -/
structure Mirrors (minimum : Amount) (stakes : Stakes) (set : ValidatorSet κ) : Prop where
  ascending : (shown set).Pairwise fun a b => a.1 < b.1
  mem_iff : ∀ o internal stake, (o, internal, stake) ∈ shown set ↔
    (∃ s ∈ stakes, s.2.active = true ∧ s.2.owner = o) ∧
      stake.toNat = min (activeSum stakes o) (UInt64.size - 1) ∧ minimum ≤ stake ∧
      Address.derive o = .ok internal

theorem mem_shown_iff {internal : Address.Internal} {stake : Amount} :
    (o, internal, stake) ∈ shown set ↔ ∃ key v, set.get? key = some v ∧
      v.identity = o ∧ v.internal = internal ∧ v.stake = stake := by
  simp only [shown, ByteMap.values, List.mem_map, Prod.mk.injEq]
  constructor
  · rintro ⟨v, ⟨⟨key, v'⟩, he, rfl⟩, hv⟩
    exact ⟨key, v', ByteMap.mem_entries_iff.1 he, hv⟩
  · rintro ⟨key, v, hv, h⟩
    exact ⟨v, ⟨(key, v), ByteMap.mem_entries_iff.2 hv, rfl⟩, h⟩

theorem get?_of_refresh (h : (refresh factory minimum old stakes).value = .ok set) :
    set.get? o = some v ↔ activeOf stakes o ≠ [] ∧
      Admits factory minimum old o (Amount.ofTotal (activeSum stakes o)) v := by
  have hempty : ({} : ValidatorSet κ).get? o = none := rfl
  rw [refresh_value] at h
  simp only [rebuild_ok (ownerTotals stakes).ascending h, ByteMap.mem_entries_iff,
    get?_ownerTotals, hempty, reduceCtorEq, and_false, or_false]
  by_cases hnone : activeOf stakes o = [] <;> simp [hnone]

theorem exists_admits_of_refresh (h : (refresh factory minimum old stakes).value = .ok set)
    (ho : Qualifies minimum stakes o) :
    ∃ v, Admits factory minimum old o (Amount.ofTotal (activeSum stakes o)) v :=
  exists_admits (refresh_value .. ▸ h) (mem_ownerTotals_iff.2 ⟨ho.1, rfl⟩) ho.2

theorem get?_ne_none_of_refresh (h : (refresh factory minimum old stakes).value = .ok set)
    (ho : Qualifies minimum stakes o) : set.get? o ≠ none := by
  obtain ⟨v, ha⟩ := exists_admits_of_refresh h ho
  rw [(get?_of_refresh h).2 ⟨ho.1, ha⟩]
  simp

/-- A set that has been rebuilt mirrors the stakes, whatever it was before. -/
theorem mirrors_of_refresh (h : (refresh factory minimum old stakes).value = .ok set) :
    Mirrors minimum stakes set := by
  constructor
  · rw [shown, ByteMap.values, List.map_map]
    refine List.pairwise_map.2 (set.ascending.imp_of_mem ?_)
    rintro ⟨o, v⟩ ⟨o', v'⟩ hm hm' hlt
    have hv := ((get?_of_refresh h).1 (ByteMap.mem_entries_iff.1 hm)).2
    have hv' := ((get?_of_refresh h).1 (ByteMap.mem_entries_iff.1 hm')).2
    simpa [hv.identity, hv'.identity] using hlt
  · intro o internal stake
    rw [mem_shown_iff, ← activeOf_ne_nil_iff, ← Amount.toNat_ofTotal, UInt64.toNat_inj]
    constructor
    · rintro ⟨key, v, hv, rfl, rfl, rfl⟩
      obtain ⟨hne, ha⟩ := (get?_of_refresh h).1 hv
      rw [ha.identity]
      exact ⟨hne, ha.stake, ha.stake ▸ ha.reaches, ha.internal⟩
    · rintro ⟨hne, rfl, hmin, hd⟩
      obtain ⟨v, ha⟩ := exists_admits_of_refresh h ⟨hne, hmin⟩
      have hinternal := Except.ok.inj (ha.internal.symm.trans hd)
      exact ⟨o, v, (get?_of_refresh h).2 ⟨hne, ha⟩, ha.identity, hinternal, ha.stake⟩

theorem refresh_error_iff (hs : ∀ s ∈ stakes, Address.isExternal s.2.owner = true) :
    (∃ f, (refresh factory minimum old stakes).value = .error f) ↔
      ∃ o, Qualifies minimum stakes o ∧ Fails factory old o := by
  rw [refresh_value, rebuild_error_iff]
  · constructor
    · rintro ⟨⟨o, total⟩, he, hreach, hfails⟩
      obtain ⟨hne, rfl⟩ := mem_ownerTotals_iff.1 he
      exact ⟨o, ⟨hne, hreach⟩, hfails⟩
    · rintro ⟨o, ⟨hne, hreach⟩, hfails⟩
      exact ⟨(o, _), mem_ownerTotals_iff.2 ⟨hne, rfl⟩, hreach, hfails⟩
  · rintro ⟨o, total⟩ he
    obtain ⟨s, hmem, -, rfl⟩ := activeOf_ne_nil_iff.1 (mem_ownerTotals_iff.1 he).1
    exact hs s hmem

end ValidatorSet

end StakeQuorum
