import StakeQuorum.Proofs.Validator.Members

/-! # Asking for clients

While a set is rebuilt the factory is asked for owners in ascending order, and so for none of them
twice. A rebuild that goes through has asked for those who enter the set and for nobody else, and
whoever stays keeps the client of before.
-/

namespace StakeQuorum

/-- The owner for whom a client was asked. -/
def Notice.owner? : Notice → Option Bytes
  | .asked o => some o
  | .log _ | .told .. => none

namespace Traced

variable {α β : Type}

theorem filterMap_lift {f : Notice → Option β} (hf : ∀ n, f (.log n) = none) (x : Logged α) :
    (liftM x : Noticed α).trace.filterMap f = [] := by
  have htrace : (liftM x : Noticed α).trace = x.trace.map Notice.log := rfl
  rw [htrace, List.filterMap_map]
  exact List.filterMap_eq_nil_iff.2 fun n _ => hf n

def asked (x : Noticed α) : List Bytes := x.trace.filterMap Notice.owner?

@[simp] theorem asked_pure (a : α) : asked (pure a : Noticed α) = [] := rfl

@[simp] theorem asked_bind (x : Noticed α) (f : α → Noticed β) :
    asked (x >>= f) = asked x ++ asked (f x.value) := List.filterMap_append

@[simp] theorem asked_lift (x : Logged α) : asked (liftM x) = [] := filterMap_lift (fun _ => rfl) x

end Traced

open Traced (asked)

namespace ValidatorSet

variable {κ : Type} {factory : Option (ClientFactory κ)} {minimum : Amount}
  {old new set : ValidatorSet κ} {es : List (Bytes × Amount)} {stakes : Stakes} {o : Bytes}
  {total : Amount} {v v' : Validator κ}

/-! ### Clients -/

/-- The client that an owner gets on entering a set: what the factory makes, or none without a
factory. -/
def Supplies (factory : Option (ClientFactory κ)) (o : Bytes) (client : Option κ) : Prop :=
  match factory with
  | none => client = none
  | some make => make o = .ok client

theorem clientFor_ok_iff {client : Option κ} : (clientFor factory old o).value = .ok client ↔
    (∃ v, old.get? o = some v ∧ v.client = client) ∨
      old.get? o = none ∧ Supplies factory o client := by
  unfold clientFor
  cases old.get? o with
  | some v => simp
  | none => cases factory <;> simp [Supplies, eq_comm]

theorem Admits.stays (h : Admits factory minimum old o total v') (ho : old.get? o = some v) :
    v'.client = v.client := by
  have hclient := clientFor_ok_iff.1 h.client
  simp only [ho, Option.some.injEq, exists_eq_left', reduceCtorEq, false_and, or_false] at hclient
  exact hclient.symm

theorem Admits.enters (h : Admits factory minimum old o total v) (ho : old.get? o = none) :
    Supplies factory o v.client := by
  have hclient := clientFor_ok_iff.1 h.client
  simpa [ho] using hclient

theorem asked_clientFor (factory : Option (ClientFactory κ)) (old : ValidatorSet κ) (o : Bytes) :
    asked (clientFor factory old o) =
      if factory.isSome ∧ old.get? o = none then [o] else [] := by
  unfold clientFor
  cases old.get? o <;> cases factory <;> rfl

/-! ### Rebuilding -/

theorem asked_rebuild_cons (h : Admits factory minimum old o total v) :
    asked (rebuild factory minimum old ((o, total) :: es) new) =
      asked (clientFor factory old o) ++
        asked (rebuild factory minimum old es (new.insert o v)) := by
  obtain ⟨hreaches, rfl, hinternal, rfl, hclient⟩ := h
  rw [rebuild, if_neg (UInt64.not_lt.2 hreaches)]
  simp only [hinternal, Traced.asked_bind, hclient]

theorem asked_rebuild_sublist (es : List (Bytes × Amount)) (new : ValidatorSet κ) :
    (asked (rebuild factory minimum old es new)).Sublist (es.map (·.1)) := by
  induction es generalizing new with
  | nil => exact .slnil
  | cons e es ih =>
    obtain ⟨o, total⟩ := e
    rw [List.map_cons, rebuild]
    split
    · exact (ih new).cons o
    · cases Address.derive o with
      | error e => exact List.nil_sublist _
      | ok internal =>
        have hfirst : (asked (clientFor factory old o)).Sublist [o] := by
          rw [asked_clientFor]
          split
          · exact .refl _
          · exact List.nil_sublist _
        rw [Traced.asked_bind]
        refine hfirst.append ?_
        cases (clientFor factory old o).value with
        | error f => exact List.nil_sublist _
        | ok client => exact ih _

/-- A rebuild that goes through has asked for the owners who reach the minimum and are new. -/
theorem mem_asked_rebuild (h : (rebuild factory minimum old es new).value = .ok set) :
    o ∈ asked (rebuild factory minimum old es new) ↔
      (factory.isSome ∧ old.get? o = none) ∧ ∃ total, (o, total) ∈ es ∧ minimum ≤ total := by
  induction es generalizing new with
  | nil => simp [rebuild]
  | cons e es ih =>
    obtain ⟨o', total'⟩ := e
    rcases rebuild_cons_ok h with ⟨hlow, h⟩ | ⟨v, hv, h⟩
    · have hnot : ¬ minimum ≤ total' := UInt64.not_le.2 hlow
      rw [rebuild, if_pos hlow, ih h]
      grind
    · have hreaches := hv.reaches
      rw [asked_rebuild_cons hv, List.mem_append, ih h, asked_clientFor]
      grind

theorem asked_refresh (factory : Option (ClientFactory κ)) (minimum : Amount)
    (old : ValidatorSet κ) (stakes : Stakes) : asked (refresh factory minimum old stakes) =
      asked (rebuild factory minimum old (ownerTotals stakes).entries {}) := by
  simp only [refresh, Traced.asked_bind]
  split
  · exact List.append_nil _
  · split <;> simp

theorem ascending_asked (factory : Option (ClientFactory κ)) (minimum : Amount)
    (old : ValidatorSet κ) (stakes : Stakes) :
    (asked (refresh factory minimum old stakes)).Pairwise (· < ·) := by
  rw [asked_refresh]
  refine List.Pairwise.sublist (asked_rebuild_sublist _ _) ?_
  exact List.pairwise_map.2 (ownerTotals stakes).ascending

/-- What becomes of the clients when a set is replaced by another: the factory is asked for those
who enter, in ascending order, and for nobody else, and those who stay keep the client they had. -/
structure Renewed (factory : Option (ClientFactory κ)) (old new : ValidatorSet κ)
    (asked : List Bytes) : Prop where
  ascending : asked.Pairwise (· < ·)
  mem_asked : ∀ o, o ∈ asked ↔ factory.isSome ∧ old.get? o = none ∧ new.get? o ≠ none
  enters : ∀ o v, old.get? o = none → new.get? o = some v → Supplies factory o v.client
  stays : ∀ o v v', old.get? o = some v → new.get? o = some v' → v'.client = v.client

theorem renewed_of_refresh (h : (refresh factory minimum old stakes).value = .ok set) :
    Renewed factory old set (asked (refresh factory minimum old stakes)) where
  ascending := ascending_asked factory minimum old stakes
  mem_asked o := by
    rw [asked_refresh, mem_asked_rebuild (refresh_value .. ▸ h), and_assoc]
    refine and_congr_right fun _ => and_congr_right fun _ => ?_
    simp only [mem_ownerTotals_iff]
    constructor
    · rintro ⟨total, ⟨hne, rfl⟩, hreaches⟩
      exact get?_ne_none_of_refresh h ⟨hne, hreaches⟩
    · intro hmember
      obtain ⟨v, hv⟩ := Option.ne_none_iff_exists'.1 hmember
      obtain ⟨hne, hadmits⟩ := (get?_of_refresh h).1 hv
      exact ⟨_, ⟨hne, rfl⟩, hadmits.reaches⟩
  enters o v ho hv := ((get?_of_refresh h).1 hv).2.enters ho
  stays o v v' ho hv' := ((get?_of_refresh h).1 hv').2.stays ho

end ValidatorSet

end StakeQuorum
