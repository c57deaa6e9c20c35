import Mathlib.Data.List.Perm.Basic
import Mathlib.Data.List.Nodup
import StakeQuorum.Proofs.WorkerPool.Operations
import StakeQuorum.WorkerPool.History

/-! # What becomes of tasks

However callers, workers and the end of a pool interleave, the tasks start in the order in which
they were accepted and no task starts twice. When the last worker has gone home, every task that
was accepted has been finished once, and a pool that is stopped can always come to that end.
-/

namespace StakeQuorum.WorkerPool.History

open Moves (Reaches)

variable {g g' : History} {m : Move} {t limit : Nat} {raised : Option Bytes}

/-! ### Moves -/

/-- The pool would accept a task now. -/
def Accepts (g : History) : Prop := g.pool.running = true ∧ g.pool.queue.length < g.pool.limit

theorem step_enqueue (h : g.step .enqueue = some g') :
    (g.Accepts ∧ g' = { g with
      pool := { g.pool with queue := g.pool.queue ++ [g.accepted] }
      accepted := g.accepted + 1 }) ∨ (¬ g.Accepts ∧ g' = g) := by
  simp only [step] at h
  cases he : g.pool.enqueue g.accepted with
  | error e =>
    rw [he] at h
    refine .inr ⟨?_, (Option.some.inj h).symm⟩
    rintro ⟨hr, hroom⟩
    have hok := (enqueue_eq_ok_iff (t := g.accepted)).2 ⟨hr, hroom, rfl⟩
    exact absurd (he.symm.trans hok) (by simp)
  | ok pool =>
    rw [he] at h
    obtain ⟨hr, hroom, rfl⟩ := enqueue_eq_ok_iff.1 he
    exact .inl ⟨⟨hr, hroom⟩, (Option.some.inj h).symm⟩

theorem step_reserve {slots : Nat} (h : g.step (.reserve slots) = some g') :
    ∃ workers, g.pool.workers ≤ workers ∧ g' = { g with pool := { g.pool with workers } } := by
  simp only [step, reserve_value, Option.some.injEq] at h
  refine ⟨_, ?_, h.symm⟩
  split
  · exact Nat.le_max_left ..
  · exact Nat.le_refl _

theorem step_take (h : g.step .take = some g') :
    ∃ t queue, g.pool.queue = t :: queue ∧ g.pool.active.length < g.pool.workers ∧
      g' = { g with
        pool := { g.pool with queue, active := g.pool.active ++ [t] }
        started := g.started ++ [t] } := by
  simp only [step, Option.map_eq_some_iff] at h
  obtain ⟨⟨t, pool⟩, ht, rfl⟩ := h
  obtain ⟨hfree, queue, hqueue, rfl⟩ := take?_eq_some_iff.1 ht
  exact ⟨t, queue, hqueue, hfree, rfl⟩

/-- Whatever a task raises is caught, so that its worker stays. -/
theorem value_conclude {τ : Type} [BEq τ] (p : WorkerPool τ) (t : τ) (raised : Option Bytes) :
    (p.conclude t raised).value = p.finish t := by
  cases raised <;> rfl

theorem step_finish (h : g.step (.finish t raised) = some g') :
    t ∈ g.pool.active ∧ ∃ notes, g' = { g with
      pool := { g.pool with active := g.pool.active.erase t }
      finished := g.finished ++ [t]
      notes } := by
  simp only [step, value_conclude, Option.ite_none_right_eq_some, Option.some.injEq] at h
  exact ⟨h.1, _, h.2.symm⟩

theorem step_stop (h : g.step .stop = some g') :
    g' = { g with pool := { g.pool with running := false } } :=
  (Option.some.inj h).symm

theorem step_leave (h : g.step .leave = some g') :
    g.pool.running = false ∧ g.pool.queue = [] ∧ g.pool.active.length < g.pool.workers ∧
      g' = { g with pool := { g.pool with workers := g.pool.workers - 1 } } := by
  simp only [step, canLeave, Option.ite_none_right_eq_some, Bool.and_eq_true, Bool.not_eq_true',
    List.isEmpty_iff, decide_eq_true_eq, Option.some.injEq] at h
  exact ⟨h.1.1.1, h.1.1.2, h.1.2, h.2.symm⟩

/-- Only a pool that accepts is given a task, only at the end does a worker leave, and a pool that
was stopped does not run again. -/
theorem frame_of_step (h : g.step m = some g') :
    (m = .enqueue ∧ g.Accepts ∧ g'.accepted = g.accepted + 1 ∨
      ¬ (m = .enqueue ∧ g.Accepts) ∧ g'.accepted = g.accepted) ∧
    (g.pool.workers ≤ g'.pool.workers ∨
      m = .leave ∧ g.pool.running = false ∧ g.pool.queue = []) ∧
    (g.pool.running = false → g'.pool.running = false) := by
  cases m with
  | enqueue =>
    rcases step_enqueue h with ⟨ha, rfl⟩ | ⟨ha, rfl⟩
    · exact ⟨.inl ⟨rfl, ha, rfl⟩, .inl (Nat.le_refl _), id⟩
    · exact ⟨.inr ⟨fun he => ha he.2, rfl⟩, .inl (Nat.le_refl _), id⟩
  | reserve slots =>
    obtain ⟨workers, hmore, rfl⟩ := step_reserve h
    exact ⟨.inr ⟨by simp, rfl⟩, .inl hmore, id⟩
  | take =>
    obtain ⟨t, queue, -, -, rfl⟩ := step_take h
    exact ⟨.inr ⟨by simp, rfl⟩, .inl (Nat.le_refl _), id⟩
  | finish t raised =>
    obtain ⟨-, notes, rfl⟩ := step_finish h
    exact ⟨.inr ⟨by simp, rfl⟩, .inl (Nat.le_refl _), id⟩
  | stop =>
    rw [step_stop h]
    exact ⟨.inr ⟨by simp, rfl⟩, .inl (Nat.le_refl _), fun _ => rfl⟩
  | leave =>
    obtain ⟨hstopped, hqueue, -, rfl⟩ := step_leave h
    exact ⟨.inr ⟨by simp, rfl⟩, .inr ⟨rfl, hstopped, hqueue⟩, id⟩

/-! ### What holds in every history -/

/-- Tasks are started in the order of their numbers and then worked on until they are finished, and
there are workers as long as there may be something to do. -/
structure Orderly (limit : Nat) (g : History) : Prop where
  limit : g.pool.limit = limit
  order : g.started ++ g.pool.queue = List.range g.accepted
  underway : g.started.Perm (g.finished ++ g.pool.active)
  busy : g.pool.active.length ≤ g.pool.workers
  staffed : g.pool.running = true ∨ g.pool.queue ≠ [] → 0 < g.pool.workers

theorem initialWorkers_pos {τ : Type} (p : WorkerPool τ) : 0 < p.initialWorkers := by
  unfold initialWorkers
  split
  · exact Nat.pos_of_ne_zero ‹_›
  · split
    · exact Nat.pos_of_ne_zero ‹_›
    · decide

theorem orderly_start (name : Bytes) (size processors limit : Nat) :
    Orderly limit (start { name, size, processors, limit }) where
  limit := rfl
  order := rfl
  underway := .nil
  busy := Nat.zero_le _
  staffed _ := initialWorkers_pos _

namespace Orderly

theorem step (h : Orderly limit g) (hs : g.step m = some g') : Orderly limit g' := by
  cases m with
  | enqueue =>
    rcases step_enqueue hs with ⟨⟨hr, -⟩, rfl⟩ | ⟨-, rfl⟩
    · refine ⟨h.limit, ?_, h.underway, h.busy, fun _ => h.staffed (.inl hr)⟩
      rw [← List.append_assoc, h.order, List.range_succ]
    · exact h
  | reserve slots =>
    obtain ⟨workers, hmore, rfl⟩ := step_reserve hs
    exact ⟨h.limit, h.order, h.underway, Nat.le_trans h.busy hmore,
      fun hd => Nat.lt_of_lt_of_le (h.staffed hd) hmore⟩
  | take =>
    obtain ⟨t, queue, hqueue, hfree, rfl⟩ := step_take hs
    refine ⟨h.limit, ?_, ?_, ?_, fun _ => Nat.lt_of_le_of_lt (Nat.zero_le _) hfree⟩
    · rw [List.append_assoc, List.singleton_append, ← hqueue]
      exact h.order
    · rw [← List.append_assoc]
      exact h.underway.append_right [t]
    · rw [List.length_append]
      exact hfree
  | finish t raised =>
    obtain ⟨hactive, notes, rfl⟩ := step_finish hs
    refine ⟨h.limit, h.order, ?_, Nat.le_trans (List.length_erase_le ..) h.busy, h.staffed⟩
    rw [List.append_assoc]
    exact h.underway.trans ((List.perm_cons_erase hactive).append_left _)
  | stop =>
    rw [step_stop hs]
    refine ⟨h.limit, h.order, h.underway, h.busy, fun hd => h.staffed (.inr ?_)⟩
    simpa using hd
  | leave =>
    obtain ⟨hstopped, hqueue, hfree, rfl⟩ := step_leave hs
    refine ⟨h.limit, h.order, h.underway, Nat.le_sub_one_of_lt hfree, fun hd => ?_⟩
    simp [hstopped, hqueue] at hd

theorem of_reaches {name : Bytes} {size processors : Nat}
    (h : Reaches History.step (start { name, size, processors, limit }) g) : Orderly limit g :=
  h.keeps (orderly_start name size processors limit) fun _ _ _ h hs => h.step hs

/-- When nobody is left, everything that was accepted has been finished. -/
theorem finished (h : Orderly limit g) (hw : g.pool.workers = 0) :
    g.pool.queue = [] ∧ g.finished.Perm (List.range g.accepted) := by
  have hqueue : g.pool.queue = [] := by
    by_contra hne
    have := h.staffed (.inr hne)
    omega
  have hactive : g.pool.active = [] :=
    List.length_eq_zero_iff.1 (Nat.eq_zero_of_le_zero (hw ▸ h.busy))
  have hall := h.underway
  have hstarted := h.order
  rw [hactive, List.append_nil] at hall
  rw [hqueue, List.append_nil] at hstarted
  exact ⟨hqueue, hstarted ▸ hall.symm⟩

end Orderly

/-! ### The end of a pool -/

theorem accepted_of_stopped (hg : g.pool.running = false) (h : Reaches step g g') :
    g'.accepted = g.accepted := by
  suffices hkept : g'.pool.running = false ∧ g'.accepted = g.accepted from hkept.2
  refine h.keeps (P := fun d => d.pool.running = false ∧ d.accepted = g.accepted) ⟨hg, rfl⟩ ?_
  rintro d m d' ⟨hd, ha⟩ hs
  obtain ⟨⟨-, ⟨hr, -⟩, -⟩ | ⟨-, hsame⟩, -, hstopped⟩ := frame_of_step hs
  · exact absurd (hd.symm.trans hr) (by simp)
  · exact ⟨hstopped hd, hsame.trans ha⟩

/-! ### A pool at work -/

theorem Orderly.not_mem_active (h : Orderly limit g) (ht : t ∈ g.pool.queue) :
    t ∉ g.pool.active := by
  intro hactive
  have hnodup : (g.started ++ g.pool.queue).Nodup := h.order ▸ List.nodup_range
  have hstarted : t ∈ g.started := h.underway.mem_iff.2 (List.mem_append_right _ hactive)
  exact (List.nodup_append.1 hnodup).2.2 t hstarted t ht rfl

theorem step_finish_none {t : Nat} (ht : t ∈ g.pool.active) : g.step (.finish t none) =
    some { g with pool := g.pool.finish t, finished := g.finished ++ [t] } := by
  have hnotes : g.notes ++ (g.pool.conclude t none).trace = g.notes := List.append_nil _
  simp only [step, if_pos ht, hnotes]
  rfl

theorem reaches_settleFrom (blocked : Nat → Bool) (queue : List Nat) {p : WorkerPool Nat}
    (h : Orderly limit g) (hp : g.pool = { p with queue }) :
    ∃ g', Reaches step g g' ∧ g'.pool = (settleFrom blocked queue p).2 ∧
      g'.finished = g.finished ++ (settleFrom blocked queue p).1 := by
  induction queue generalizing g p with
  | nil => exact ⟨g, .start, hp, (List.append_nil _).symm⟩
  | cons t queue ih =>
    unfold settleFrom
    by_cases hfull : p.workers ≤ p.active.length
    · rw [if_pos hfull]
      exact ⟨g, .start, hp, (List.append_nil _).symm⟩
    rw [if_neg hfull]
    let taken : History := { g with
      pool := { p with queue, active := p.active ++ [t] }
      started := g.started ++ [t] }
    have htake : g.step .take = some taken := by
      have htaken : g.pool.take? = some (t, taken.pool) := by
        rw [hp]
        exact take?_eq_some_iff.2 ⟨Nat.lt_of_not_le hfull, queue, rfl, rfl⟩
      rw [step, htaken]
      rfl
    have hreach : Reaches step g taken := Reaches.start.move .take htake
    by_cases hb : blocked t = true
    · rw [if_pos hb]
      obtain ⟨g', hreach', hpool, hfinished⟩ :=
        ih (p := { p with active := p.active ++ [t] }) (h.step htake) rfl
      exact ⟨g', hreach.trans hreach', hpool, hfinished⟩
    · rw [if_neg hb]
      have hnew : t ∉ p.active := by
        have := h.not_mem_active (t := t) (by rw [hp]; exact List.mem_cons_self)
        rwa [hp] at this
      let ended : History := { taken with
        pool := { p with queue }
        finished := g.finished ++ [t] }
      have hend : taken.step (.finish t none) = some ended := by
        rw [step_finish_none (List.mem_append_right _ List.mem_cons_self)]
        simp [taken, ended, WorkerPool.finish, List.erase_append_right, hnew]
      obtain ⟨g', hreach', hpool, hfinished⟩ := ih (p := p) ((h.step htake).step hend) rfl
      refine ⟨g', (hreach.move _ hend).trans hreach', hpool, hfinished.trans ?_⟩
      exact List.append_assoc ..

theorem Orderly.reaches_settle (h : Orderly limit g) (blocked : Nat → Bool) :
    ∃ g', Reaches History.step g g' ∧ g'.pool = (g.pool.settle blocked).2 ∧
      g'.finished = g.finished ++ (g.pool.settle blocked).1 :=
  reaches_settleFrom blocked g.pool.queue h rfl

theorem reaches_unblock (g : History) : ∃ g', Reaches step g g' ∧ g'.pool = g.pool.unblock ∧
    g'.finished = g.finished ++ g.pool.active := by
  induction hactive : g.pool.active generalizing g with
  | nil =>
    refine ⟨g, .start, ?_, (List.append_nil _).symm⟩
    rw [unblock, ← hactive]
  | cons t active ih =>
    let ended : History := { g with
      pool := { g.pool with active }, finished := g.finished ++ [t] }
    have hend : g.step (.finish t none) = some ended := by
      rw [step_finish_none (hactive ▸ List.mem_cons_self)]
      simp [ended, WorkerPool.finish, hactive]
    obtain ⟨g', hreach, hpool, hfinished⟩ := ih ended rfl
    refine ⟨g', (Reaches.start.move _ hend).trans hreach, hpool, hfinished.trans ?_⟩
    exact List.append_assoc ..

theorem settleFrom_free (queue : List Nat) {p : WorkerPool Nat} (hactive : p.active = [])
    (hw : queue ≠ [] → 0 < p.workers) :
    settleFrom (fun _ => false) queue p = (queue, { p with queue := [] }) := by
  induction queue with
  | nil => rfl
  | cons t queue ih =>
    have hpos : 0 < p.workers := hw (List.cons_ne_nil t queue)
    have hfree : ¬ p.workers ≤ p.active.length := by
      rw [hactive]
      exact Nat.not_le.2 hpos
    rw [settleFrom, if_neg hfree, ih fun _ => hpos]
    rfl

theorem reaches_empty (hstop : g.pool.running = false) (hqueue : g.pool.queue = [])
    (hactive : g.pool.active = []) : ∃ g', Reaches step g g' ∧
      g'.pool = { g.pool with workers := 0 } ∧ g'.finished = g.finished := by
  induction hw : g.pool.workers generalizing g with
  | zero => exact ⟨g, .start, by rw [← hw], rfl⟩
  | succ n ih =>
    let fewer : History := { g with pool := { g.pool with workers := n } }
    have hleave : g.step .leave = some fewer := by
      simp [step, canLeave, fewer, hstop, hqueue, hactive, hw]
    obtain ⟨g', hreach, hpool, hfinished⟩ := ih (g := fewer) hstop hqueue hactive rfl
    exact ⟨g', (Reaches.start.move _ hleave).trans hreach, hpool, hfinished⟩

/-- Shutting a pool down makes moves of this kind. -/
theorem Orderly.reaches_shutdown (h : Orderly limit g) : ∃ g', Reaches History.step g g' ∧
    g'.pool = g.pool.shutdown.2 ∧
      g'.finished = g.finished ++ g.pool.active ++ g.pool.shutdown.1 := by
  obtain ⟨g₁, hreach₁, hpool₁, hfinished₁⟩ := reaches_unblock { g with pool := g.pool.stop }
  have hreach₁ : Reaches History.step g g₁ := (Reaches.start.move .stop rfl).trans hreach₁
  have h₁ : Orderly limit g₁ := hreach₁.keeps h fun _ _ _ h hs => h.step hs
  obtain ⟨g₂, hreach₂, hpool₂, hfinished₂⟩ := h₁.reaches_settle fun _ => false
  have hdrain : g.pool.stop.unblock.settle (fun _ => false) =
      (g.pool.queue, { g.pool.stop.unblock with queue := [] }) :=
    settleFrom_free _ rfl fun hne => h.staffed (.inr hne)
  rw [hpool₁, hdrain] at hpool₂ hfinished₂
  obtain ⟨g₃, hreach₃, hpool₃, hfinished₃⟩ := reaches_empty (g := g₂) (by rw [hpool₂]; rfl)
    (by rw [hpool₂]) (by rw [hpool₂]; rfl)
  refine ⟨g₃, (hreach₁.trans hreach₂).trans hreach₃, ?_, ?_⟩
  · rw [hpool₃, hpool₂, shutdown, drain, hdrain]
  · rw [hfinished₃, hfinished₂, hfinished₁, shutdown, drain, hdrain]
    rfl

/-- However the moves of a pool interleave, tasks start in the order of their acceptance, none of
them twice, and there is a worker for each that is under way. Only a pool that runs and has room
accepts tasks, and only at the end do workers leave. When the last one has left, everything that was
accepted has been finished exactly once, and shutting the pool down brings every history to that
end. -/
theorem loses_and_repeats_nothing {name : Bytes} {size processors : Nat}
    (h : Reaches step (start { name, size, processors, limit }) g) :
    g.started <+: List.range g.accepted ∧ g.started.Nodup ∧
    g.pool.active.length ≤ g.pool.workers ∧
    (∀ m g', g.step m = some g' → g'.pool.workers < g.pool.workers →
      m = .leave ∧ g.pool.running = false ∧ g.pool.queue = []) ∧
    (∀ m g', g.step m = some g' → (g'.accepted ≠ g.accepted ↔
      m = .enqueue ∧ g.pool.running = true ∧ g.pool.queue.length < limit)) ∧
    (g.pool.running = false → ∀ g', Reaches step g g' → g'.accepted = g.accepted) ∧
    (g.pool.workers = 0 → g.pool.queue = [] ∧ g.finished.Perm (List.range g.accepted)) ∧
    ∃ g', Reaches step g g' ∧ g'.pool = g.pool.shutdown.2 ∧ g'.pool.workers = 0 ∧
      g'.finished = g.finished ++ g.pool.active ++ g.pool.shutdown.1 := by
  have ho := Orderly.of_reaches h
  have horder : g.started <+: List.range g.accepted := ho.order ▸ List.prefix_append ..
  refine ⟨horder, horder.sublist.nodup List.nodup_range, ho.busy, ?_, ?_, ?_, ho.finished, ?_⟩
  · intro m g' hs hfewer
    obtain ⟨-, hmore | hleave, -⟩ := frame_of_step hs
    · exact absurd hmore (Nat.not_le.2 hfewer)
    · exact hleave
  · intro m g' hs
    rw [← ho.limit]
    obtain ⟨⟨hm, ha, hone⟩ | ⟨hnot, hsame⟩, -⟩ := frame_of_step hs
    · exact iff_of_true (by omega) ⟨hm, ha⟩
    · exact iff_of_false (not_not.2 hsame) hnot
  · intro hstop g' h'
    exact accepted_of_stopped hstop h'
  · obtain ⟨g', hreach, hpool, hfinished⟩ := ho.reaches_shutdown
    exact ⟨g', hreach, hpool, congrArg WorkerPool.workers hpool, hfinished⟩

/-- The pool grows while a task is under way, refuses a task when two are waiting and another one
when it is stopped, and two of its three tasks raise something. -/
theorem loses_and_repeats_nothing_threeTasks :
    ∃ g, Reaches step (start { size := 1, limit := 2 }) g ∧ g.accepted = 3 ∧
      g.started = [0, 1, 2] ∧ g.finished = [1, 0, 2] ∧ g.notes.length = 2 ∧
      g.pool.workers = 0 ∧ g.pool.queue = [] ∧ g.finished.Perm (List.range 3) := by
  let moves : List Move :=
    [.enqueue, .take, .reserve 1, .enqueue, .enqueue, .enqueue, .take, .finish 1 (some "broken"),
      .stop, .enqueue, .take, .finish 0 none, .finish 2 (some "too late"), .leave, .leave]
  obtain ⟨notes, hmoves, hnotes⟩ : ∃ notes : List Log.Note,
      Moves.run step (start { size := 1, limit := 2 }) moves =
        some ⟨{ size := 1, limit := 2 }, 3, [0, 1, 2], [1, 0, 2], notes⟩ ∧ notes.length = 2 :=
    ⟨_, rfl, rfl⟩
  have hrun := Reaches.of_run hmoves
  obtain ⟨-, -, -, -, -, -, hend, -⟩ := loses_and_repeats_nothing hrun
  exact ⟨_, hrun, rfl, rfl, rfl, hnotes, rfl, hend rfl⟩

end StakeQuorum.WorkerPool.History
