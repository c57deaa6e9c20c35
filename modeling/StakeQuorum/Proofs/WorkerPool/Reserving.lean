import StakeQuorum.Proofs.Interleaving
import StakeQuorum.Proofs.WorkerPool.Operations
import StakeQuorum.WorkerPool.Reservations

/-! # When reserved workers suffice

A reservation counts the tasks that wait or are worked on, and not those that other rounds have
reserved workers for and are yet to enqueue. The rounds under way have a worker for each of their
tasks, however they go on, exactly when there are workers for all tasks that wait, are worked on or
are still to come. A run keeps this exactly when no round begins in between the reservation and the
last task of another one while the pool is too small for both.
-/

namespace StakeQuorum.WorkerPool.Reservations

open Moves (Reaches Along Avoids)

variable {r r' : Reservations} {m : Move} {i slots t : Nat}

/-! ### Moves -/

theorem step_reserve (hr : r.pool.running = true) (h : r.step (.reserve slots) = some r') :
    r' = { r with
      pool := { r.pool with workers := max r.pool.workers (r.load + slots) }
      owed := r.owed ++ [slots] } := by
  simp only [step, reserve_value, Option.some.injEq] at h
  rw [← h, if_pos hr, needed, load, Nat.add_comm r.pool.active.length]

theorem step_enqueue_iff : r.step (.enqueue i) = some r' ↔ r.pool.running = true ∧
    r.pool.queue.length < r.pool.limit ∧ ∃ n, r.owed[i]? = some (n + 1) ∧ r' = {
      pool := { r.pool with queue := r.pool.queue ++ [r.enqueued] }
      enqueued := r.enqueued + 1
      owed := r.owed.set i n } := by
  constructor
  · intro h
    simp only [step] at h
    split at h
    · rename_i n pool howed hpool
      obtain ⟨hr, hroom, rfl⟩ := enqueue_eq_ok_iff.1 hpool
      exact ⟨hr, hroom, n, howed, (Option.some.inj h).symm⟩
    · cases h
  · rintro ⟨hr, hroom, n, howed, rfl⟩
    rw [step, howed, enqueue_eq_ok_iff.2 ⟨hr, hroom, rfl⟩]

theorem step_take (h : r.step .take = some r') : ∃ t queue, r.pool.queue = t :: queue ∧
    r' = { r with pool := { r.pool with queue, active := r.pool.active ++ [t] } } := by
  simp only [step, Option.map_eq_some_iff] at h
  obtain ⟨⟨t, pool⟩, ht, rfl⟩ := h
  obtain ⟨-, queue, hqueue, rfl⟩ := take?_eq_some_iff.1 ht
  exact ⟨t, queue, hqueue, rfl⟩

theorem step_finish (h : r.step (.finish t) = some r') : t ∈ r.pool.active ∧
    r' = { r with pool := { r.pool with active := r.pool.active.erase t } } := by
  simp only [step, Option.ite_none_right_eq_some, Option.some.injEq] at h
  exact ⟨h.1, h.2.symm⟩

/-- A pool on which rounds go on runs and has room for a task when none is waiting. -/
def Open (r : Reservations) : Prop := r.pool.running = true ∧ 0 < r.pool.limit

theorem Open.step (hr : r.Open) (h : r.step m = some r') : r'.Open := by
  cases m with
  | reserve slots =>
    rw [step_reserve hr.1 h]
    exact hr
  | enqueue i =>
    obtain ⟨-, -, n, -, rfl⟩ := step_enqueue_iff.1 h
    exact hr
  | take =>
    obtain ⟨t, queue, -, rfl⟩ := step_take h
    exact hr
  | finish t =>
    obtain ⟨-, rfl⟩ := step_finish h
    exact hr

/-! ### Workers for all tasks -/

/-- There are workers for all tasks that wait, are worked on, or are still to come. -/
def Covered (r : Reservations) : Prop := r.load + r.owed.sum ≤ r.pool.workers

/-- A round begins while others have tasks to enqueue, and there are not workers for all of them. -/
def Overlooks (r : Reservations) : Move → Prop
  | .reserve slots => r.owed.sum ≠ 0 ∧ r.pool.workers < r.load + r.owed.sum + slots
  | _ => False

instance : ∀ m, Decidable (Overlooks r m)
  | .reserve _ => inferInstanceAs (Decidable (_ ∧ _))
  | .enqueue _ | .take | .finish _ => instDecidableFalse

theorem sum_owed {owed : List Nat} {n : Nat} (h : owed[i]? = some (n + 1)) :
    owed.sum = (owed.set i n).sum + 1 := by
  have hsum := sum_map_set h n id
  simp only [List.map_id, id_eq] at hsum
  omega

theorem covered_step_iff (hr : r.Open) (hc : r.Covered) (h : r.step m = some r') :
    r'.Covered ↔ ¬ r.Overlooks m := by
  unfold Covered load at *
  cases m with
  | reserve slots =>
    rw [step_reserve hr.1 h]
    simp only [Overlooks, load, List.sum_append, List.sum_singleton]
    omega
  | enqueue i =>
    obtain ⟨-, -, n, howed, rfl⟩ := step_enqueue_iff.1 h
    have hsum := sum_owed howed
    refine iff_of_true ?_ id
    simp only [List.length_append, List.length_singleton]
    omega
  | take =>
    obtain ⟨t, queue, hqueue, rfl⟩ := step_take h
    refine iff_of_true ?_ id
    simp only [hqueue, List.length_append, List.length_cons, List.length_nil] at hc ⊢
    omega
  | finish t =>
    obtain ⟨-, rfl⟩ := step_finish h
    have hfewer : (r.pool.active.erase t).length ≤ r.pool.active.length := List.length_erase_le ..
    refine iff_of_true ?_ id
    show r.pool.queue.length + (r.pool.active.erase t).length + r.owed.sum ≤ r.pool.workers
    omega

/-! ### Rounds under way -/

/-- The moves of workers and of rounds that have begun. -/
def proceed (r : Reservations) : Move → Option Reservations
  | .reserve _ => none
  | m => r.step m

theorem step_of_proceed (h : r.proceed m = some r') : r.step m = some r' ∧ ¬ r.Overlooks m := by
  cases m with
  | reserve slots => cases h
  | enqueue i => exact ⟨h, id⟩
  | take => exact ⟨h, id⟩
  | finish t => exact ⟨h, id⟩

/-- There are workers for all tasks that wait or are worked on, and those that wait can be taken at
once. -/
def Staffed (r : Reservations) : Prop :=
  r.load ≤ r.pool.workers ∧ ∃ r',
    Moves.run proceed r (List.replicate r.pool.queue.length .take) = some r' ∧ r'.pool.queue = []

/-- However the rounds under way go on, none of their tasks has to wait for a worker. -/
def Safe (r : Reservations) : Prop := ∀ r', Reaches proceed r r' → r'.Staffed

theorem run_takes (h : r.load ≤ r.pool.workers) :
    Moves.run proceed r (List.replicate r.pool.queue.length .take) = some { r with
      pool := { r.pool with queue := [], active := r.pool.active ++ r.pool.queue } } := by
  induction hqueue : r.pool.queue generalizing r with
  | nil =>
    rw [List.append_nil]
    show some r = _
    rw [← hqueue]
  | cons t queue ih =>
    rw [load, hqueue, List.length_cons] at h
    have htake : r.proceed .take = some { r with
        pool := { r.pool with queue, active := r.pool.active ++ [t] } } := by
      have htaken := take?_eq_some_iff.2 ⟨(by omega : r.pool.active.length < r.pool.workers),
        queue, hqueue, rfl⟩
      simp only [proceed, step, htaken, Option.map_some]
    rw [List.length_cons, List.replicate_succ, Moves.run_cons htake, ih ?_ rfl,
      List.append_assoc, List.singleton_append]
    simp only [load, List.length_append, List.length_singleton]
    omega

theorem staffed_iff : r.Staffed ↔ r.load ≤ r.pool.workers :=
  ⟨And.left, fun h => ⟨h, _, run_takes h, rfl⟩⟩

theorem Covered.safe (hr : r.Open) (hc : r.Covered) : r.Safe := by
  intro r' h
  have hkept : r'.Open ∧ r'.Covered := by
    refine h.keeps (P := fun d => d.Open ∧ d.Covered) ⟨hr, hc⟩ ?_
    rintro d m d' ⟨hd, hcovered⟩ hm
    obtain ⟨hm, hnot⟩ := step_of_proceed hm
    exact ⟨hd.step hm, (covered_step_iff hd hcovered hm).2 hnot⟩
  exact staffed_iff.2 (Nat.le_trans (Nat.le_add_right ..) hkept.2)

theorem exists_owed (h : r.owed.sum ≠ 0) : ∃ i n : Nat, r.owed[i]? = some (n + 1) := by
  by_contra hnone
  refine h (List.sum_eq_zero_iff_forall_eq_nat.2 fun k hk => ?_)
  obtain ⟨i, hi⟩ := List.mem_iff_getElem?.1 hk
  cases k with
  | zero => rfl
  | succ n => exact absurd ⟨i, n, hi⟩ hnone

/-- What the rounds have yet to enqueue may come before anything is finished. -/
theorem Safe.covered (hr : r.Open) (hs : r.Safe) : r.Covered := by
  have hload := (hs r .start).1
  induction hsum : r.owed.sum generalizing r with
  | zero =>
    rw [Covered, hsum]
    exact hload
  | succ n ih =>
    obtain ⟨i, k, howed⟩ := exists_owed (r := r) (hsum ▸ Nat.succ_ne_zero n)
    let taken : Reservations := { r with
      pool := { r.pool with queue := [], active := r.pool.active ++ r.pool.queue } }
    let next : Reservations := {
      pool := { taken.pool with queue := [r.enqueued] }
      enqueued := r.enqueued + 1
      owed := r.owed.set i k }
    have henqueue : taken.proceed (.enqueue i) = some next :=
      step_enqueue_iff.2 ⟨hr.1, hr.2, k, howed, rfl⟩
    have hreach : Reaches proceed r next := (Reaches.of_run (run_takes hload)).move _ henqueue
    have hnext : next.Safe := fun d hd => hs d (hreach.trans hd)
    have hsum' := sum_owed howed
    have hrest : next.owed.sum = n := show (r.owed.set i k).sum = n by omega
    have hc : next.Covered := ih hr hnext (hnext next .start).1 hrest
    simp only [Covered, load, next, taken, List.length_append, List.length_singleton] at hc ⊢
    omega

theorem safe_iff_covered (hr : r.Open) : r.Safe ↔ r.Covered :=
  ⟨Safe.covered hr, Covered.safe hr⟩

/-- However the steps of any number of rounds and of the workers interleave, the rounds have workers
for all of their tasks all the time, and keep them however they go on, exactly when no round begins
in between the reservation and the last task of others on a pool that is too small for all. -/
theorem safe_iff_avoids_overlooking {name : Bytes} {size processors limit : Nat} {ms : List Move}
    (hlimit : 0 < limit)
    (h : Moves.run step (start { name, size, processors, limit }) ms = some r) :
    Along step (start { name, size, processors, limit }) ms Safe ↔
      Avoids step (start { name, size, processors, limit }) ms Overlooks := by
  have hopen : Open (start { name, size, processors, limit }) := ⟨rfl, hlimit⟩
  refine Moves.along_iff_avoids (fun s m t (hs : s.Open) hm => hs.step hm) ?_ hopen
    ((safe_iff_covered hopen).2 (Nat.zero_le _)) h
  intro s m t hs hsafe hm
  rw [safe_iff_covered (hs.step hm)]
  exact covered_step_iff hs ((safe_iff_covered hs).1 hsafe) hm

/-- Two rounds one after the other, while a task of the first one still holds its worker. -/
theorem safe_twoRounds : ∃ r, Moves.run step (start { size := 1 })
      [.reserve 2, .enqueue 0, .take, .enqueue 0, .take, .finish 1, .reserve 3, .enqueue 1, .take,
        .enqueue 1, .finish 2, .enqueue 1] = some r ∧
    r.load = 3 ∧ r.pool.workers = 4 ∧ r.Safe := by
  have hrun : Moves.run step (start { size := 1 })
      [.reserve 2, .enqueue 0, .take, .enqueue 0, .take, .finish 1, .reserve 3, .enqueue 1, .take,
        .enqueue 1, .finish 2, .enqueue 1] = some ⟨{
          size := 1, running := true, workers := 4, queue := [3, 4], active := [0] }, 5, [0, 0]⟩ :=
    rfl
  have hsafe := (safe_iff_avoids_overlooking (by decide) hrun).2 (by
    repeat refine (Moves.avoids_cons rfl).2 ⟨by decide, ?_⟩
    exact fun n m t hm => by simp at hm)
  exact ⟨_, hrun, rfl, rfl, hsafe 12 _ hrun⟩

/-- Two rounds that both reserve first: a task waits for the worker of the other round. -/
theorem not_staffed_twoRounds : ∃ r, Moves.run step (start { size := 1 })
      [.reserve 1, .reserve 1, .enqueue 0, .enqueue 1, .take] = some r ∧
    r.pool.queue.length < r.pool.limit ∧ r.pool.workers < r.load ∧ r.pool.queue = [1] ∧
    r.step .take = none :=
  ⟨⟨{ size := 1, running := true, workers := 1, queue := [1], active := [0] }, 2, [0, 0]⟩, rfl,
    by decide, by decide, rfl, rfl⟩

end StakeQuorum.WorkerPool.Reservations
