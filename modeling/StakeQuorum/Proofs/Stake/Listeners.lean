import StakeQuorum.Proofs.Stake.Slots

/-! # Listeners that come and go

Nobody calls a listener that is marked as removed, and whoever marks it has waited for the call that
was running. So a listener whose removal has returned is neither called nor about to be, and a
notification calls everyone exactly once who stays registered while it runs.
-/

namespace StakeQuorum.Stake.Notification

open Moves (Reaches)

def Notify.pending (x : Notify) : List Nat :=
  match x.doing with
  | .holding id => id :: x.rest
  | _ => x.rest

def Notify.left (x : Notify) : Nat :=
  4 * x.rest.length + match x.doing with
    | .idle => 0
    | .holding _ => 3
    | .calling _ => 2
    | .leaving _ => 1

def Removal.left : Removal → Nat
  | .erased _ => 2
  | .holding _ => 1
  | .returned _ => 0

namespace Board

variable {b b' c : Board} {m : Move} {n r id : Nat} {x : Notify} {y : Removal}

/-- The listeners that a notification has called, in the order of the calls. -/
def callsBy (b : Board) (n : Nat) : List Nat := (b.calls.filter (·.1 == n)).map (·.2)

def callsOf (b : Board) (id : Nat) : List (Nat × Nat) := b.calls.filter (·.2 == id)

/-! ### Calls -/

/-- How a notification goes on, and the call that it begins. -/
inductive Turn (b : Board) (n : Nat) : Notify → Notify → List (Nat × Nat) → Prop
  | lock (id : Nat) (rest : List Nat) : Turn b n ⟨id :: rest, .idle⟩ ⟨rest, .holding id⟩ []
  | skip (id : Nat) (rest : List Nat) : (b.slots id).removed = true →
      Turn b n ⟨rest, .holding id⟩ ⟨rest, .leaving id⟩ []
  | call (id : Nat) (rest : List Nat) : (b.slots id).removed = false →
      Turn b n ⟨rest, .holding id⟩ ⟨rest, .calling id⟩ [(n, id)]
  | endCall (id : Nat) (rest : List Nat) : Turn b n ⟨rest, .calling id⟩ ⟨rest, .leaving id⟩ []
  | unlock (id : Nat) (rest : List Nat) : Turn b n ⟨rest, .leaving id⟩ ⟨rest, .idle⟩ []

theorem step_notifies (hm : b.step m = some b') :
    (∃ n x x' begun, b.notifies[n]? = some x ∧ Turn b n x x' begun ∧
      b'.notifies = b.notifies.set n x' ∧ b'.calls = b.calls ++ begun) ∨
    (b'.notifies = b.notifies ∨ b'.notifies = b.notifies ++ [⟨b.listed, .idle⟩]) ∧
      b'.calls = b.calls := by
  cases m with
  | add =>
    cases hm
    exact .inr ⟨.inl rfl, rfl⟩
  | notify =>
    cases hm
    exact .inr ⟨.inr rfl, rfl⟩
  | lock n =>
    obtain ⟨id, rest, hn, -, rfl⟩ := step_lock hm
    exact .inl ⟨n, _, _, _, hn, .lock id rest, rfl, (List.append_nil _).symm⟩
  | test n =>
    obtain ⟨id, rest, hn, ⟨hr, rfl⟩ | ⟨hr, rfl⟩⟩ := step_test hm
    · exact .inl ⟨n, _, _, _, hn, .skip id rest hr, rfl, (List.append_nil _).symm⟩
    · exact .inl ⟨n, _, _, _, hn, .call id rest hr, rfl, rfl⟩
  | endCall n =>
    obtain ⟨id, rest, hn, rfl⟩ := step_endCall hm
    exact .inl ⟨n, _, _, _, hn, .endCall id rest, rfl, (List.append_nil _).symm⟩
  | unlock n =>
    obtain ⟨id, rest, hn, rfl⟩ := step_unlock hm
    exact .inl ⟨n, _, _, _, hn, .unlock id rest, rfl, (List.append_nil _).symm⟩
  | remove id =>
    obtain ⟨-, rfl⟩ | ⟨-, rfl⟩ := step_remove hm
    · exact .inr ⟨.inl rfl, rfl⟩
    · exact .inr ⟨.inl rfl, rfl⟩
  | lockRemoved r =>
    obtain ⟨id, -, -, rfl⟩ := step_lockRemoved hm
    exact .inr ⟨.inl rfl, rfl⟩
  | mark r =>
    obtain ⟨id, -, rfl⟩ := step_mark hm
    exact .inr ⟨.inl rfl, rfl⟩

theorem not_calling_step (hm : b.step m = some b') (hr : (b.slots id).removed = true)
    (h : b.isCalling id = false) :
    b'.isCalling id = false ∧ b'.callsOf id = b.callsOf id := by
  have hnot : ∀ x ∈ b.notifies, x.doing ≠ .calling id := by simpa [isCalling] using h
  rcases step_notifies hm with ⟨n, x, x', begun, hn, hturn, hnotifies, hcalls⟩ | ⟨hnotifies, hcalls⟩
  · have hx' : x'.doing ≠ .calling id ∧ begun.filter (·.2 == id) = [] := by
      cases hturn with
      | lock i rest => simp
      | skip i rest hi => simp
      | call i rest hi =>
        have hne : i ≠ id := by
          rintro rfl
          exact absurd (hr.symm.trans hi) (by simp)
        simp [hne]
      | endCall i rest => simp
      | unlock i rest => simp
    constructor
    · simp only [isCalling, hnotifies, List.any_eq_false, beq_iff_eq]
      intro y hy
      rcases List.mem_or_eq_of_mem_set hy with hy | rfl
      · exact hnot y hy
      · exact hx'.1
    · rw [callsOf, hcalls, List.filter_append, hx'.2, List.append_nil, callsOf]
  · constructor
    · rcases hnotifies with hnotifies | hnotifies
      · rw [isCalling, hnotifies, ← isCalling, h]
      · simpa [isCalling, hnotifies] using h
    · rw [callsOf, hcalls, callsOf]

structure Sound (b : Board) : Prop where
  locked : b.Locked
  numbered : b.Numbered
  quiet : ∀ id, (b.slots id).removed = true → b.isCalling id = false
  begun : ∀ call ∈ b.calls, call.1 < b.notifies.length

namespace Sound

theorem start : Sound {} where
  locked _ := rfl
  numbered := ⟨Nat.one_pos, fun id => by simp [removing]; omega, .nil⟩
  quiet _ h := by cases h
  begun := by simp

theorem step (h : b.Sound) (hm : b.step m = some b') : b'.Sound where
  locked := h.locked.step hm
  numbered := h.numbered.step hm
  quiet id hr := by
    rcases removed_of_step hm hr with hr | ⟨hholding, hnotifies⟩
    · exact (not_calling_step hm hr (h.quiet id hr)).1
    · rw [isCalling, hnotifies]
      exact h.locked.not_calling hholding
  begun := by
    rcases step_notifies hm with ⟨n, x, x', begun, hn, hturn, hnotifies, hcalls⟩ |
      ⟨hnotifies, hcalls⟩
    · obtain ⟨hlt, -⟩ := List.getElem?_eq_some_iff.1 hn
      rw [hnotifies, hcalls, List.length_set]
      refine List.forall_mem_append.2 ⟨h.begun, ?_⟩
      cases hturn <;> simp [hlt]
    · rw [hcalls]
      intro call hcall
      have hlt := h.begun call hcall
      rcases hnotifies with hnotifies | hnotifies
      · rwa [hnotifies]
      · rw [hnotifies, List.length_append]
        omega

theorem of_reaches (h : Reaches Board.step {} b) : b.Sound :=
  h.keeps start fun _ _ _ hs hm => hs.step hm

theorem reaches (h : b.Sound) (hc : Reaches Board.step b c) : c.Sound :=
  hc.keeps h fun _ _ _ hs hm => hs.step hm

end Sound

/-! ### Removals -/

/-- A removal is on its way, or the listener is marked. -/
def Removing (r id : Nat) (b : Board) : Prop :=
  b.removals[r]? = some (.erased id) ∨ b.removals[r]? = some (.holding id) ∨
    (b.slots id).removed = true

theorem Removing.step (h : Removing r id b) (hm : b.step m = some b') : Removing r id b' := by
  rcases h with hr | hr | hr
  · rcases removals_step hm hr with hr' | ⟨i, heq, hr'⟩ | ⟨i, heq, hr'⟩
    · exact .inl hr'
    · cases heq
      exact .inr (.inl hr')
    · cases heq
  · rcases removals_step hm hr with hr' | ⟨i, heq, hr'⟩ | ⟨i, heq, hr'⟩
    · exact .inr (.inl hr')
    · cases heq
    · cases heq
      exact .inr (.inr hr')
  · exact .inr (.inr (removed_step hm hr))

/-- A notification has called the first of the listeners that it copied, or found them marked, and
is yet to test the others. -/
def Passing (n : Nat) (copied : List Nat) (b : Board) : Prop :=
  ∃ x passed, b.notifies[n]? = some x ∧ copied = passed ++ x.pending ∧
    (b.callsBy n).Sublist passed ∧
    ∀ id ∈ passed, id ∈ b.callsBy n ∨ (b.slots id).removed = true

theorem passing_notify (h : b.Sound) (hm : b.step .notify = some b') :
    Passing b.notifies.length b.listed b' := by
  cases hm
  refine ⟨⟨b.listed, .idle⟩, [], by simp, rfl, ?_, by simp⟩
  have hnone : b.calls.filter (·.1 == b.notifies.length) = [] := by
    refine List.filter_eq_nil_iff.2 fun call hcall => ?_
    have hlt := h.begun call hcall
    simp
    omega
  simp [callsBy, hnone]

theorem Passing.keep {copied : List Nat} (h : Passing n copied b) (hm : b.step m = some b')
    (hn : b'.notifies[n]? = b.notifies[n]?) (hcalls : b'.callsBy n = b.callsBy n) :
    Passing n copied b' := by
  obtain ⟨x, passed, hx, hcopied, hcalled, htested⟩ := h
  refine ⟨x, passed, hn.trans hx, hcopied, hcalls ▸ hcalled, fun id hid => ?_⟩
  rw [hcalls]
  exact (htested id hid).imp_right (removed_step hm)

theorem Passing.turn {copied : List Nat} {x' : Notify} {begun : List (Nat × Nat)}
    (h : Passing n copied b) (hm : b.step m = some b') (hn : b.notifies[n]? = some x)
    (hturn : Turn b n x x' begun) (hn' : b'.notifies[n]? = some x')
    (hcalls : b'.calls = b.calls ++ begun) : Passing n copied b' := by
  obtain ⟨y, passed, hy, hcopied, hcalled, htested⟩ := h
  obtain rfl := Option.some.inj (hn.symm.trans hy)
  have htested' : ∀ id ∈ passed, id ∈ b.callsBy n ∨ (b'.slots id).removed = true :=
    fun id hid => (htested id hid).imp_right (removed_step hm)
  have hsame (hnone : begun = []) : b'.callsBy n = b.callsBy n := by simp [callsBy, hcalls, hnone]
  cases hturn with
  | lock id rest =>
    exact ⟨_, passed, hn', hcopied, hsame rfl ▸ hcalled, hsame rfl ▸ htested'⟩
  | skip id rest hr =>
    refine ⟨_, passed ++ [id], hn', hcopied.trans (List.append_cons ..), ?_, ?_⟩
    · rw [hsame rfl]
      exact hcalled.trans (List.sublist_append_left ..)
    · rw [hsame rfl]
      exact List.forall_mem_append.2 ⟨htested', by simp [removed_step hm hr]⟩
  | call id rest hr =>
    have hadds : b'.callsBy n = b.callsBy n ++ [id] := by simp [callsBy, hcalls]
    refine ⟨_, passed ++ [id], hn', hcopied.trans (List.append_cons ..), ?_, ?_⟩
    · rw [hadds]
      exact hcalled.append (.refl _)
    · rw [hadds]
      refine List.forall_mem_append.2 ⟨fun i hi => ?_, by simp⟩
      exact (htested' i hi).imp_left (List.mem_append_left _)
  | endCall id rest =>
    exact ⟨_, passed, hn', hcopied, hsame rfl ▸ hcalled, hsame rfl ▸ htested'⟩
  | unlock id rest =>
    exact ⟨_, passed, hn', hcopied, hsame rfl ▸ hcalled, hsame rfl ▸ htested'⟩

theorem Passing.step {copied : List Nat} (h : Passing n copied b) (hm : b.step m = some b') :
    Passing n copied b' := by
  obtain ⟨x, -, hn, -⟩ := id h
  obtain ⟨hlt, -⟩ := List.getElem?_eq_some_iff.1 hn
  rcases step_notifies hm with ⟨k, y, y', begun, hk, hturn, hnotifies, hcalls⟩ |
    ⟨hnotifies, hcalls⟩
  · by_cases hkn : k = n
    · subst hkn
      exact h.turn hm hk hturn (by rw [hnotifies, List.getElem?_set_self hlt]) hcalls
    · have hnone : begun.filter (·.1 == n) = [] := by
        cases hturn <;> simp [hkn]
      exact h.keep hm (by rw [hnotifies, List.getElem?_set_ne hkn])
        (by simp [callsBy, hcalls, hnone])
  · refine h.keep hm ?_ (by rw [callsBy, hcalls, callsBy])
    rcases hnotifies with hnotifies | hnotifies
    · rw [hnotifies]
    · rw [hnotifies, List.getElem?_append_left hlt]

theorem passing_of_reaches (h : b.Sound) (hm : b.step .notify = some b')
    (hc : Reaches Board.step b' c) : Passing b.notifies.length b.listed c :=
  hc.keeps (passing_notify h hm) fun _ _ _ hs hm => hs.step hm

theorem Passing.sublist {copied : List Nat} (h : Passing n copied b) :
    (b.callsBy n).Sublist copied := by
  obtain ⟨x, passed, -, hcopied, hcalled, -⟩ := h
  exact hcalled.trans (hcopied ▸ List.sublist_append_left ..)

theorem Passing.mem {copied : List Nat} (h : Passing n copied b)
    (hover : b.notifies[n]? = some ⟨[], .idle⟩) (hid : id ∈ copied)
    (hr : (b.slots id).removed = false) : id ∈ b.callsBy n := by
  obtain ⟨x, passed, hn, hcopied, -, htested⟩ := h
  obtain rfl := Option.some.inj (hover.symm.trans hn)
  rw [Notify.pending, List.append_nil] at hcopied
  exact (htested id (hcopied ▸ hid)).resolve_right (by simp [hr])

theorem count_callsBy (h : b.Sound) (hm : b.step .notify = some b') (hc : Reaches Board.step b' c)
    (hover : c.notifies[b.notifies.length]? = some ⟨[], .idle⟩) (hid : id ∈ b.listed)
    (hstill : id ∈ c.listed) : (c.callsBy b.notifies.length).count id = 1 := by
  have hpassing := passing_of_reaches h hm hc
  have hnot : (c.slots id).removed = false :=
    ((h.step hm).reaches hc).numbered.not_removed
      (Nat.add_pos_left (List.count_pos_iff.2 hstill) _)
  have hnodup : (c.callsBy b.notifies.length).Nodup :=
    (h.numbered.ascending.sublist hpassing.sublist).imp Nat.ne_of_lt
  exact List.count_eq_one_of_mem hnodup (hpassing.mem hover hid hnot)

/-! ### Coming to an end -/

/-- The moves of what has begun. -/
def proceed (b : Board) : Move → Option Board
  | .add | .notify | .remove _ => none
  | m => b.step m

theorem step_of_proceed (h : b.proceed m = some b') : b.step m = some b' := by
  cases m with
  | add => cases h
  | notify => cases h
  | remove id => cases h
  | lock n => exact h
  | test n => exact h
  | endCall n => exact h
  | unlock n => exact h
  | lockRemoved r => exact h
  | mark r => exact h

theorem reaches_of_proceed (h : Reaches proceed b c) : Reaches Board.step b c := by
  induction h with
  | start => exact .start
  | move m _ hm ih => exact ih.move m (step_of_proceed hm)

theorem registers_of_proceed (h : b.proceed m = some b') :
    b'.listed = b.listed ∧ b'.nextId = b.nextId := by
  have hm := step_of_proceed h
  cases m with
  | add => cases h
  | notify => cases h
  | remove id => cases h
  | lock n =>
    obtain ⟨id, rest, -, -, rfl⟩ := step_lock hm
    exact ⟨rfl, rfl⟩
  | test n =>
    obtain ⟨id, rest, -, ⟨-, rfl⟩ | ⟨-, rfl⟩⟩ := step_test hm
    · exact ⟨rfl, rfl⟩
    · exact ⟨rfl, rfl⟩
  | endCall n =>
    obtain ⟨id, rest, -, rfl⟩ := step_endCall hm
    exact ⟨rfl, rfl⟩
  | unlock n =>
    obtain ⟨id, rest, -, rfl⟩ := step_unlock hm
    exact ⟨rfl, rfl⟩
  | lockRemoved r =>
    obtain ⟨id, -, -, rfl⟩ := step_lockRemoved hm
    exact ⟨rfl, rfl⟩
  | mark r =>
    obtain ⟨id, -, rfl⟩ := step_mark hm
    exact ⟨rfl, rfl⟩

/-- Every notification is over, and every removal has returned. -/
def Settled (b : Board) : Prop :=
  (∀ x ∈ b.notifies, x = ⟨[], .idle⟩) ∧ ∀ y ∈ b.removals, ∃ id, y = .returned id

def remaining (b : Board) : Nat :=
  (b.notifies.map Notify.left).sum + (b.removals.map Removal.left).sum

/-- A move of what has begun is possible. -/
def Advances (b : Board) : Prop := ∃ m b', b.proceed m = some b' ∧ b'.remaining < b.remaining

theorem remaining_setNotify (h : b.notifies[n]? = some x) {x' : Notify} (hless : x'.left < x.left) :
    (b.setNotify n x').remaining < b.remaining := by
  have hsum := sum_map_set h x' Notify.left
  simp only [remaining, setNotify]
  omega

theorem remaining_setRemoval (h : b.removals[r]? = some y) {y' : Removal}
    (hless : y'.left < y.left) : (b.setRemoval r y').remaining < b.remaining := by
  have hsum := sum_map_set h y' Removal.left
  simp only [remaining, setRemoval]
  omega

theorem advances_of_notify (hx : x ∈ b.notifies) (hdoing : x.doing ≠ .idle) : b.Advances := by
  obtain ⟨n, hn⟩ := List.mem_iff_getElem?.1 hx
  obtain ⟨rest, doing⟩ := x
  cases doing with
  | idle => exact absurd rfl hdoing
  | holding id =>
    cases hr : (b.slots id).removed with
    | true =>
      exact ⟨.test n, b.setNotify n ⟨rest, .leaving id⟩,
        by simp [proceed, step, stepNotify, hn, hr],
        remaining_setNotify hn (by simp [Notify.left])⟩
    | false =>
      exact ⟨.test n, { b with calls := b.calls ++ [(n, id)] }.setNotify n ⟨rest, .calling id⟩,
        by simp [proceed, step, stepNotify, hn, hr],
        remaining_setNotify hn (by simp [Notify.left])⟩
  | calling id =>
    exact ⟨.endCall n, b.setNotify n ⟨rest, .leaving id⟩, by simp [proceed, step, stepNotify, hn],
      remaining_setNotify hn (by simp [Notify.left])⟩
  | leaving id =>
    exact ⟨.unlock n, (b.setSlot id { b.slots id with locked := false }).setNotify n ⟨rest, .idle⟩,
      by simp [proceed, step, stepNotify, hn],
      remaining_setNotify (b := b.setSlot id _) hn (by simp [Notify.left])⟩

theorem advances_of_removal (hy : .holding id ∈ b.removals) : b.Advances := by
  obtain ⟨r, hr⟩ := List.mem_iff_getElem?.1 hy
  exact ⟨.mark r, (b.setSlot id ⟨false, true⟩).setRemoval r (.returned id),
    by simp [proceed, step, stepRemoval, hr],
    remaining_setRemoval (b := b.setSlot id _) hr Nat.one_pos⟩

theorem Locked.free (h : b.Locked) (hidle : ∀ x ∈ b.notifies, x.doing = .idle)
    (hnone : ∀ id, .holding id ∉ b.removals) (id : Nat) : (b.slots id).locked = false := by
  have hnotifies : (b.notifies.map (·.doing.holds id)).sum = 0 := by
    refine List.sum_eq_zero fun k hk => ?_
    obtain ⟨x, hx, rfl⟩ := List.mem_map.1 hk
    rw [hidle x hx]
    rfl
  have hremovals : (b.removals.map (·.holds id)).sum = 0 := by
    refine List.sum_eq_zero fun k hk => ?_
    obtain ⟨y, hy, rfl⟩ := List.mem_map.1 hk
    cases y with
    | erased i => rfl
    | holding i => exact absurd hy (hnone i)
    | returned i => rfl
  have hid := h id
  rw [holders, hnotifies, hremovals] at hid
  cases hlocked : (b.slots id).locked with
  | false => rfl
  | true => simp [hlocked] at hid

theorem Locked.exists_advances (h : b.Locked) (hunsettled : ¬ b.Settled) : b.Advances := by
  by_cases hidle : ∀ x ∈ b.notifies, x.doing = .idle
  case neg =>
    obtain ⟨x, hx, hdoing⟩ := not_forall₂.1 hidle
    exact advances_of_notify hx hdoing
  by_cases hnone : ∀ id, .holding id ∉ b.removals
  case neg =>
    obtain ⟨id, hid⟩ := not_forall_not.1 hnone
    exact advances_of_removal hid
  have hfree := h.free hidle hnone
  rcases not_and_or.1 hunsettled with hsome | hsome
  · obtain ⟨⟨rest, doing⟩, hx, hrest⟩ := not_forall₂.1 hsome
    obtain rfl : doing = .idle := hidle _ hx
    obtain ⟨n, hn⟩ := List.mem_iff_getElem?.1 hx
    cases rest with
    | nil => exact absurd rfl hrest
    | cons id rest =>
      exact ⟨.lock n,
        (b.setSlot id { b.slots id with locked := true }).setNotify n ⟨rest, .holding id⟩,
        by simp [proceed, Board.step, stepNotify, hn, hfree id],
        remaining_setNotify (b := b.setSlot id _) hn (by simp [Notify.left]; omega)⟩
  · obtain ⟨y, hy, hreturned⟩ := not_forall₂.1 hsome
    obtain ⟨r, hr⟩ := List.mem_iff_getElem?.1 hy
    cases y with
    | erased id =>
      exact ⟨.lockRemoved r,
        (b.setSlot id { b.slots id with locked := true }).setRemoval r (.holding id),
        by simp [proceed, Board.step, stepRemoval, hr, hfree id],
        remaining_setRemoval (b := b.setSlot id _) hr (Nat.lt_succ_self 1)⟩
    | holding id => exact absurd hy (hnone id)
    | returned id => exact absurd ⟨id, rfl⟩ hreturned

/-- Whatever has begun can come to its end, and nobody has to come or go for that. -/
theorem Sound.exists_settled (h : b.Sound) : ∃ c, Reaches proceed b c ∧ c.Settled ∧
    c.listed = b.listed ∧ c.nextId = b.nextId := by
  induction hn : b.remaining using Nat.strongRecOn generalizing b with
  | ind n ih =>
    by_cases hsettled : b.Settled
    · exact ⟨b, .start, hsettled, rfl, rfl⟩
    · obtain ⟨m, next, hm, hless⟩ := h.locked.exists_advances hsettled
      obtain ⟨hlisted, hnext⟩ := registers_of_proceed hm
      obtain ⟨c, hreach, hc, hlisted', hnext'⟩ :=
        ih next.remaining (hn ▸ hless) (h.step (step_of_proceed hm)) rfl
      exact ⟨c, (Reaches.start.move m hm).trans hreach, hc, hlisted'.trans hlisted,
        hnext'.trans hnext⟩

/-- A notification calls everyone on the list in turn if nobody has been removed by its end. -/
theorem callsBy_of_settled (h : b.Sound) (hm : b.step .notify = some b')
    (hc : Reaches Board.step b' c) (hsettled : c.Settled) (hlisted : c.listed = b.listed) :
    c.callsBy b.notifies.length = b.listed := by
  have hpassing := passing_of_reaches h hm hc
  obtain ⟨x, -, hn, -⟩ := id hpassing
  obtain rfl := hsettled.1 x (List.mem_of_getElem? hn)
  have hsubset : b.listed ⊆ c.callsBy b.notifies.length := by
    intro id hid
    refine List.count_pos_iff.1 ?_
    rw [count_callsBy h hm hc hn hid (hlisted ▸ hid)]
    exact Nat.one_pos
  have hnodup : b.listed.Nodup := h.numbered.ascending.imp Nat.ne_of_lt
  exact hpassing.sublist.eq_of_length_le (hnodup.subperm hsubset).length_le

end Board

end StakeQuorum.Stake.Notification
