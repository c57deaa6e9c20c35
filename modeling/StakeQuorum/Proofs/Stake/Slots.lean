import StakeQuorum.Proofs.Interleaving
import StakeQuorum.Stake.Notification

/-! # The slots of listeners

The lock of a slot has one holder at most. A listener that was ever registered is on the list, or
being removed, or marked as removed, and never two of these. Every step of notifications, removals
and additions keeps both.
-/

namespace StakeQuorum.Stake.Notification

def Telling.holds (id : Nat) : Telling → Nat
  | .idle => 0
  | .holding i | .calling i | .leaving i => if i = id then 1 else 0

def Removal.holds (id : Nat) : Removal → Nat
  | .erased _ | .returned _ => 0
  | .holding i => if i = id then 1 else 0

/-- Counts a removal of a listener that has not returned. -/
def Removal.awaits (id : Nat) : Removal → Nat
  | .erased i | .holding i => if i = id then 1 else 0
  | .returned _ => 0

namespace Board

variable {b b' : Board} {m : Move} {n r id : Nat} {x : Notify} {y : Removal}

def holders (b : Board) (id : Nat) : Nat :=
  (b.notifies.map (·.doing.holds id)).sum + (b.removals.map (·.holds id)).sum

/-- How many removals of a listener have not returned. -/
def removing (b : Board) (id : Nat) : Nat := (b.removals.map (·.awaits id)).sum

/-! ### Moves -/

@[simp] theorem slots_setRemoval (b : Board) (r : Nat) (y : Removal) :
    (b.setRemoval r y).slots = b.slots := rfl

theorem step_lock (h : b.step (.lock n) = some b') : ∃ id rest,
    b.notifies[n]? = some ⟨id :: rest, .idle⟩ ∧ (b.slots id).locked = false ∧
      b' = (b.setSlot id { b.slots id with locked := true }).setNotify n ⟨rest, .holding id⟩ := by
  obtain ⟨x, hx, h⟩ := Option.bind_eq_some_iff.1 h
  obtain ⟨rest, doing⟩ := x
  simp only [stepNotify] at h
  split at h
  · simp only [Option.ite_none_left_eq_some, Bool.not_eq_true, Option.some.injEq] at h
    exact ⟨_, _, hx, h.1, h.2.symm⟩
  · cases h

theorem step_test (h : b.step (.test n) = some b') : ∃ id rest,
    b.notifies[n]? = some ⟨rest, .holding id⟩ ∧
      ((b.slots id).removed = true ∧ b' = b.setNotify n ⟨rest, .leaving id⟩ ∨
        (b.slots id).removed = false ∧
          b' = { b with calls := b.calls ++ [(n, id)] }.setNotify n ⟨rest, .calling id⟩) := by
  obtain ⟨x, hx, h⟩ := Option.bind_eq_some_iff.1 h
  obtain ⟨rest, doing⟩ := x
  simp only [stepNotify] at h
  split at h
  · refine ⟨_, rest, hx, ?_⟩
    split at h
    · exact .inl ⟨‹_›, (Option.some.inj h).symm⟩
    · exact .inr ⟨Bool.eq_false_of_not_eq_true ‹_›, (Option.some.inj h).symm⟩
  · cases h

theorem step_endCall (h : b.step (.endCall n) = some b') : ∃ id rest,
    b.notifies[n]? = some ⟨rest, .calling id⟩ ∧ b' = b.setNotify n ⟨rest, .leaving id⟩ := by
  obtain ⟨x, hx, h⟩ := Option.bind_eq_some_iff.1 h
  obtain ⟨rest, doing⟩ := x
  simp only [stepNotify] at h
  split at h
  · exact ⟨_, rest, hx, (Option.some.inj h).symm⟩
  · cases h

theorem step_unlock (h : b.step (.unlock n) = some b') : ∃ id rest,
    b.notifies[n]? = some ⟨rest, .leaving id⟩ ∧
      b' = (b.setSlot id { b.slots id with locked := false }).setNotify n ⟨rest, .idle⟩ := by
  obtain ⟨x, hx, h⟩ := Option.bind_eq_some_iff.1 h
  obtain ⟨rest, doing⟩ := x
  simp only [stepNotify] at h
  split at h
  · exact ⟨_, rest, hx, (Option.some.inj h).symm⟩
  · cases h

theorem step_remove (h : b.step (.remove id) = some b') :
    id ∈ b.listed ∧ b' = { b with
        listed := b.listed.erase id, removals := b.removals ++ [.erased id] } ∨
      id ∉ b.listed ∧ b' = { b with removals := b.removals ++ [.returned id] } := by
  simp only [step] at h
  split at h
  · exact .inl ⟨‹_›, (Option.some.inj h).symm⟩
  · exact .inr ⟨‹_›, (Option.some.inj h).symm⟩

theorem step_lockRemoved (h : b.step (.lockRemoved r) = some b') : ∃ id,
    b.removals[r]? = some (.erased id) ∧ (b.slots id).locked = false ∧
      b' = (b.setSlot id { b.slots id with locked := true }).setRemoval r (.holding id) := by
  obtain ⟨y, hy, h⟩ := Option.bind_eq_some_iff.1 h
  simp only [stepRemoval] at h
  split at h
  · simp only [Option.ite_none_left_eq_some, Bool.not_eq_true, Option.some.injEq] at h
    exact ⟨_, hy, h.1, h.2.symm⟩
  · cases h

theorem step_mark (h : b.step (.mark r) = some b') : ∃ id,
    b.removals[r]? = some (.holding id) ∧
      b' = (b.setSlot id ⟨false, true⟩).setRemoval r (.returned id) := by
  obtain ⟨y, hy, h⟩ := Option.bind_eq_some_iff.1 h
  simp only [stepRemoval] at h
  split at h
  · exact ⟨_, hy, (Option.some.inj h).symm⟩
  · cases h

/-! ### Locks -/

theorem holders_setNotify (h : b.notifies[n]? = some x) (x' : Notify) (id : Nat) :
    (b.setNotify n x').holders id + x.doing.holds id = b.holders id + x'.doing.holds id := by
  have hsum := sum_map_set h x' (·.doing.holds id)
  simp only [holders, setNotify]
  omega

theorem holders_setRemoval (h : b.removals[r]? = some y) (y' : Removal) (id : Nat) :
    (b.setRemoval r y').holders id + y.holds id = b.holders id + y'.holds id := by
  have hsum := sum_map_set h y' (·.holds id)
  simp only [holders, setRemoval]
  omega

theorem removing_setRemoval (h : b.removals[r]? = some y) (y' : Removal) (id : Nat) :
    (b.setRemoval r y').removing id + y.awaits id = b.removing id + y'.awaits id :=
  sum_map_set h y' (·.awaits id)

/-- A lock is held by one notification or removal, or by nobody. -/
def Locked (b : Board) : Prop := ∀ id, b.holders id = (b.slots id).locked.toNat

theorem Locked.keep (h : b.Locked) (hslots : b'.slots = b.slots)
    (hholders : ∀ i, b'.holders i = b.holders i) : b'.Locked := by
  intro i
  rw [hholders, hslots]
  exact h i

theorem Locked.take (h : b.Locked) (hfree : (b.slots id).locked = false) {slot : Slot}
    (hslot : slot.locked = true) (hslots : b'.slots = (b.setSlot id slot).slots)
    (hholders : ∀ i, b'.holders i = b.holders i + if id = i then 1 else 0) : b'.Locked := by
  intro i
  rw [hholders, hslots, h i]
  by_cases hi : id = i
  · simp [setSlot, hi ▸ hfree, hslot, hi]
  · simp [setSlot, hi, Ne.symm hi]

theorem Locked.give (h : b.Locked) {slot : Slot} (hslot : slot.locked = false)
    (hslots : b'.slots = (b.setSlot id slot).slots)
    (hholders : ∀ i, b'.holders i + (if id = i then 1 else 0) = b.holders i) : b'.Locked := by
  intro i
  have hi := hholders i
  rw [h i] at hi
  rw [hslots]
  by_cases heq : id = i
  · have hle := Bool.toNat_le (b.slots i).locked
    simp only [setSlot, heq, if_true, hslot, Bool.toNat_false] at hi ⊢
    omega
  · simpa [setSlot, heq, Ne.symm heq] using hi

theorem Locked.step (h : b.Locked) (hm : b.step m = some b') : b'.Locked := by
  cases m with
  | add =>
    cases hm
    exact h
  | notify =>
    cases hm
    exact h.keep rfl fun i => by simp [holders, Telling.holds]
  | lock n =>
    obtain ⟨id, rest, hn, hfree, rfl⟩ := step_lock hm
    exact h.take hfree rfl rfl fun i =>
      holders_setNotify (b := b.setSlot id _) hn ⟨rest, .holding id⟩ i
  | test n =>
    obtain ⟨id, rest, hn, ⟨-, rfl⟩ | ⟨-, rfl⟩⟩ := step_test hm
    · exact h.keep rfl fun i => Nat.add_right_cancel (holders_setNotify hn ⟨rest, .leaving id⟩ i)
    · exact h.keep rfl fun i => Nat.add_right_cancel (holders_setNotify hn ⟨rest, .calling id⟩ i)
  | endCall n =>
    obtain ⟨id, rest, hn, rfl⟩ := step_endCall hm
    exact h.keep rfl fun i => Nat.add_right_cancel (holders_setNotify hn ⟨rest, .leaving id⟩ i)
  | unlock n =>
    obtain ⟨id, rest, hn, rfl⟩ := step_unlock hm
    exact h.give rfl rfl fun i => holders_setNotify (b := b.setSlot id _) hn ⟨rest, .idle⟩ i
  | remove id =>
    obtain ⟨-, rfl⟩ | ⟨-, rfl⟩ := step_remove hm
    · exact h.keep rfl fun i => by simp [holders, Removal.holds]
    · exact h.keep rfl fun i => by simp [holders, Removal.holds]
  | lockRemoved r =>
    obtain ⟨id, hr, hfree, rfl⟩ := step_lockRemoved hm
    exact h.take hfree rfl rfl fun i => holders_setRemoval (b := b.setSlot id _) hr (.holding id) i
  | mark r =>
    obtain ⟨id, hr, rfl⟩ := step_mark hm
    exact h.give rfl rfl fun i => holders_setRemoval (b := b.setSlot id _) hr (.returned id) i

/-- Whoever marks a slot as removed has its lock, so that the listener is not called. -/
theorem Locked.not_calling (h : b.Locked) (hr : .holding id ∈ b.removals) :
    b.isCalling id = false := by
  by_contra hcalling
  obtain ⟨x, hx, hdoing⟩ : ∃ x ∈ b.notifies, x.doing = .calling id := by
    simpa [isCalling] using hcalling
  have hnotify := List.le_sum_of_mem (List.mem_map_of_mem (f := (·.doing.holds id)) hx)
  have hremoval := List.le_sum_of_mem (List.mem_map_of_mem (f := (·.holds id)) hr)
  have hle := Bool.toNat_le (b.slots id).locked
  have hall := h id
  simp only [holders, hdoing, Telling.holds, Removal.holds, if_true] at hnotify hremoval hall
  omega

/-! ### Ids -/

/-- Ids are given out in turn. A listener that was ever registered is on the list, or being removed,
or marked as removed. -/
structure Numbered (b : Board) : Prop where
  pos : 0 < b.nextId
  stages : ∀ id, b.listed.count id + b.removing id + (b.slots id).removed.toNat =
    if 0 < id ∧ id < b.nextId then 1 else 0
  ascending : b.listed.Pairwise (· < ·)

theorem Numbered.lt_nextId (h : b.Numbered) (hid : id ∈ b.listed) : id < b.nextId := by
  have hstages := h.stages id
  have hpos := List.count_pos_iff.2 hid
  by_contra hge
  rw [if_neg fun hgiven => hge hgiven.2] at hstages
  omega

theorem Numbered.not_removed (h : b.Numbered) (hid : 0 < b.listed.count id + b.removing id) :
    (b.slots id).removed = false := by
  have hstages := h.stages id
  cases hremoved : (b.slots id).removed with
  | false => rfl
  | true =>
    rw [hremoved, Bool.toNat_true] at hstages
    split at hstages <;> omega

@[simp] theorem removed_setSlot (b : Board) (id : Nat) (locked : Bool) (i : Nat) :
    ((b.setSlot id { b.slots id with locked }).slots i).removed = (b.slots i).removed := by
  by_cases hi : i = id
  · simp [setSlot, hi]
  · simp [setSlot, hi]

/-- Whoever is off the list and not being removed is marked. -/
theorem Numbered.removed (h : b.Numbered) (hpos : 0 < id) (hlt : id < b.nextId)
    (hid : id ∉ b.listed) (herased : .erased id ∉ b.removals)
    (hholding : .holding id ∉ b.removals) : (b.slots id).removed = true := by
  have hnone : b.removing id = 0 := by
    refine List.sum_eq_zero fun k hk => ?_
    obtain ⟨y, hy, rfl⟩ := List.mem_map.1 hk
    cases y with
    | erased i => exact if_neg fun (hi : i = id) => herased (hi ▸ hy)
    | holding i => exact if_neg fun (hi : i = id) => hholding (hi ▸ hy)
    | returned i => rfl
  have hstages := h.stages id
  rw [List.count_eq_zero_of_not_mem hid, hnone, if_pos ⟨hpos, hlt⟩] at hstages
  cases hr : (b.slots id).removed with
  | false => simp [hr] at hstages
  | true => rfl

/-- What a step does to the list, the removals and the marks. -/
inductive Registers (b : Board) : Board → Prop
  | nothing {b' : Board} : b'.nextId = b.nextId → b'.listed = b.listed →
      b'.removals = b.removals → (∀ i, (b'.slots i).removed = (b.slots i).removed) →
      Registers b b'
  | add : Registers b { b with listed := b.listed ++ [b.nextId], nextId := b.nextId + 1 }
  | erase (id : Nat) : id ∈ b.listed → Registers b { b with
      listed := b.listed.erase id, removals := b.removals ++ [.erased id] }
  | ignore (id : Nat) : id ∉ b.listed →
      Registers b { b with removals := b.removals ++ [.returned id] }
  | lock (r id : Nat) : b.removals[r]? = some (.erased id) → Registers b
      ((b.setSlot id { b.slots id with locked := true }).setRemoval r (.holding id))
  | mark (r id : Nat) : b.removals[r]? = some (.holding id) →
      Registers b ((b.setSlot id ⟨false, true⟩).setRemoval r (.returned id))

theorem step_registers (hm : b.step m = some b') : Registers b b' := by
  cases m with
  | add =>
    cases hm
    exact .add
  | notify =>
    cases hm
    exact .nothing rfl rfl rfl fun _ => rfl
  | lock n =>
    obtain ⟨id, rest, -, -, rfl⟩ := step_lock hm
    exact .nothing rfl rfl rfl (removed_setSlot b id true)
  | test n =>
    obtain ⟨id, rest, -, ⟨-, rfl⟩ | ⟨-, rfl⟩⟩ := step_test hm
    · exact .nothing rfl rfl rfl fun _ => rfl
    · exact .nothing rfl rfl rfl fun _ => rfl
  | endCall n =>
    obtain ⟨id, rest, -, rfl⟩ := step_endCall hm
    exact .nothing rfl rfl rfl fun _ => rfl
  | unlock n =>
    obtain ⟨id, rest, -, rfl⟩ := step_unlock hm
    exact .nothing rfl rfl rfl (removed_setSlot b id false)
  | remove id =>
    obtain ⟨hid, rfl⟩ | ⟨hid, rfl⟩ := step_remove hm
    · exact .erase id hid
    · exact .ignore id hid
  | lockRemoved r =>
    obtain ⟨id, hr, -, rfl⟩ := step_lockRemoved hm
    exact .lock r id hr
  | mark r =>
    obtain ⟨id, hr, rfl⟩ := step_mark hm
    exact .mark r id hr

theorem Numbered.step (h : b.Numbered) (hm : b.step m = some b') : b'.Numbered := by
  cases step_registers hm with
  | nothing hnext hlisted hremovals hremoved =>
    refine ⟨hnext ▸ h.pos, fun i => ?_, hlisted ▸ h.ascending⟩
    rw [hlisted, removing, hremovals, hremoved, hnext]
    exact h.stages i
  | add =>
    refine ⟨Nat.succ_pos _, fun i => ?_, ?_⟩
    · have hi := h.stages i
      have hpos := h.pos
      simp only [List.count_append, List.count_singleton, beq_iff_eq, removing] at hi ⊢
      split_ifs at hi ⊢ <;> omega
    · refine List.pairwise_append.2 ⟨h.ascending, List.pairwise_singleton .., ?_⟩
      intro i hi j hj
      exact List.mem_singleton.1 hj ▸ h.lt_nextId hi
  | erase id hid =>
    refine ⟨h.pos, fun i => ?_, h.ascending.sublist List.erase_sublist⟩
    rw [← h.stages i]
    have hpos := List.count_pos_iff.2 hid
    simp only [List.count_erase, removing, List.map_append, List.sum_append, List.map_singleton,
      List.sum_singleton, Removal.awaits]
    by_cases hi : id = i
    · subst hi
      simp only [beq_self_eq_true, if_true]
      omega
    · simp [hi]
  | ignore id hid =>
    refine ⟨h.pos, fun i => ?_, h.ascending⟩
    rw [← h.stages i]
    simp [removing, Removal.awaits]
  | lock r id hr =>
    refine ⟨h.pos, fun i => ?_, h.ascending⟩
    have hset := Nat.add_right_cancel
      (removing_setRemoval (b := b.setSlot id { b.slots id with locked := true }) hr
        (.holding id) i)
    refine Eq.trans ?_ (h.stages i)
    rw [hset, slots_setRemoval, removed_setSlot]
    rfl
  | mark r id hr =>
    refine ⟨h.pos, fun i => ?_, h.ascending⟩
    have hset : (setRemoval _ r (.returned id)).removing i + (if id = i then 1 else 0) =
        b.removing i := removing_setRemoval (b := b.setSlot id ⟨false, true⟩) hr (.returned id) i
    refine Eq.trans ?_ (h.stages i)
    by_cases heq : id = i
    · subst heq
      rw [if_pos rfl] at hset
      have hnot : (b.slots id).removed = false := h.not_removed (by omega)
      simp only [setRemoval, setSlot, if_true, hnot, Bool.toNat_true, Bool.toNat_false] at hset ⊢
      omega
    · rw [if_neg heq, Nat.add_zero] at hset
      rw [hset]
      simp [setRemoval, setSlot, Ne.symm heq]

theorem removed_step (hm : b.step m = some b') (hr : (b.slots id).removed = true) :
    (b'.slots id).removed = true := by
  cases step_registers hm with
  | nothing _ _ _ hremoved => rw [hremoved, hr]
  | add => exact hr
  | erase i _ => exact hr
  | ignore i _ => exact hr
  | lock r i _ => rwa [slots_setRemoval, removed_setSlot]
  | mark r i _ =>
    by_cases hi : id = i
    · simp [setSlot, hi]
    · simpa [setSlot, hi] using hr

theorem removed_of_step (hm : b.step m = some b') (hr : (b'.slots id).removed = true) :
    (b.slots id).removed = true ∨ .holding id ∈ b.removals ∧ b'.notifies = b.notifies := by
  cases step_registers hm with
  | nothing _ _ _ hremoved => exact .inl (hremoved id ▸ hr)
  | add => exact .inl hr
  | erase i _ => exact .inl hr
  | ignore i _ => exact .inl hr
  | lock r i _ => exact .inl (by rwa [slots_setRemoval, removed_setSlot] at hr)
  | mark r i hholding =>
    by_cases hi : id = i
    · exact .inr ⟨hi ▸ List.mem_of_getElem? hholding, rfl⟩
    · exact .inl (by simpa [setSlot, hi] using hr)

theorem removals_step (hm : b.step m = some b') (hr : b.removals[r]? = some y) :
    b'.removals[r]? = some y ∨
      (∃ id, y = .erased id ∧ b'.removals[r]? = some (.holding id)) ∨
        ∃ id, y = .holding id ∧ (b'.slots id).removed = true := by
  obtain ⟨hlt, -⟩ := List.getElem?_eq_some_iff.1 hr
  cases step_registers hm with
  | nothing _ _ hremovals _ => exact .inl (hremovals ▸ hr)
  | add => exact .inl hr
  | erase id _ => exact .inl ((List.getElem?_append_left hlt).trans hr)
  | ignore id _ => exact .inl ((List.getElem?_append_left hlt).trans hr)
  | lock k id hk =>
    by_cases heq : k = r
    · subst heq
      obtain rfl := Option.some.inj (hk.symm.trans hr)
      exact .inr (.inl ⟨id, rfl, List.getElem?_set_self hlt⟩)
    · exact .inl ((List.getElem?_set_ne heq).trans hr)
  | mark k id hk =>
    by_cases heq : k = r
    · subst heq
      obtain rfl := Option.some.inj (hk.symm.trans hr)
      exact .inr (.inr ⟨id, rfl, by simp [setSlot]⟩)
    · exact .inl ((List.getElem?_set_ne heq).trans hr)

end Board

end StakeQuorum.Stake.Notification
