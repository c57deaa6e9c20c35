import StakeQuorum.WorkerPool

/-! # What the operations of a pool do

A task is accepted at the end of the queue and taken from its front, and reserving may only add
workers.
-/

namespace StakeQuorum.WorkerPool

variable {τ : Type} {p p' : WorkerPool τ} {t : τ}

theorem enqueue_eq_ok_iff : p.enqueue t = .ok p' ↔ p.running = true ∧
    p.queue.length < p.limit ∧ p' = { p with queue := p.queue ++ [t] } := by
  unfold enqueue
  by_cases hr : p.running = true
  · by_cases hfull : p.limit ≤ p.queue.length
    · simp [hr, hfull, Nat.not_lt.2 hfull]
    · simp [hr, hfull, Nat.lt_of_not_le hfull, eq_comm]
  · simp [hr]

theorem reserve_value (p : WorkerPool τ) (slots : Nat) : (p.reserve slots).value =
    { p with workers := if p.running then max p.workers (p.needed slots) else p.workers } := by
  have hsame : ∀ workers, workers = p.workers → p = { p with workers } := by
    rintro _ rfl
    rfl
  unfold reserve
  split
  · rename_i henough
    refine hsame _ ?_
    split
    · rename_i hr
      exact Nat.max_eq_left (by simpa [hr] using henough)
    · rfl
  · rename_i hfew
    obtain ⟨hr, hfew⟩ : p.running = true ∧ p.workers < p.needed slots := by simpa using hfew
    simp [hr, Nat.max_eq_right (Nat.le_of_lt hfew)]

theorem take?_eq_some_iff : p.take? = some (t, p') ↔ p.active.length < p.workers ∧
    ∃ queue, p.queue = t :: queue ∧ p' = { p with queue, active := p.active ++ [t] } := by
  unfold take?
  cases p.queue with
  | nil => simp
  | cons t' queue =>
    by_cases hfree : p.active.length < p.workers
    · simp only [hfree, if_true, Option.some.injEq, Prod.mk.injEq, List.cons.injEq, true_and]
      constructor
      · rintro ⟨rfl, rfl⟩
        exact ⟨queue, ⟨rfl, rfl⟩, rfl⟩
      · rintro ⟨_, ⟨rfl, rfl⟩, rfl⟩
        exact ⟨rfl, rfl⟩
    · simp [hfree]

end StakeQuorum.WorkerPool
