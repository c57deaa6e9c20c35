import Mathlib
import StakeQuorum.Interleaving

/-! # Systems of concurrent parts

The parts of a system stand in a list, and a move changes one of them. Along the moves of a run, a
property that every move keeps exactly unless it is a bad one holds all the time exactly when no
move of the run is bad.
-/

namespace StakeQuorum

theorem exists_others {α : Type} {parts : List α} {i : Nat} {a : α} (h : parts[i]? = some a) :
    ∃ others, parts.Perm (a :: others) ∧ ∀ b, (parts.set i b).Perm (b :: others) := by
  obtain ⟨hi, rfl⟩ := List.getElem?_eq_some_iff.1 h
  exact ⟨parts.eraseIdx i, (List.getElem_cons_eraseIdx_perm hi).symm,
    fun b => List.set_perm_cons_eraseIdx hi b⟩

theorem sum_map_set {α : Type} {parts : List α} {i : Nat} {a : α} (h : parts[i]? = some a)
    (b : α) (f : α → Nat) : ((parts.set i b).map f).sum + f a = (parts.map f).sum + f b := by
  obtain ⟨others, hall, hset⟩ := exists_others h
  rw [((hset b).map f).sum_nat, (hall.map f).sum_nat, List.map_cons, List.map_cons, List.sum_cons,
    List.sum_cons]
  omega

namespace Moves

variable {σ μ : Type} {step : Moves σ μ} {inv prop : σ → Prop} {bad : σ → μ → Prop} {s t u : σ}
  {m : μ} {ms : List μ}

theorem run_cons (h : step s m = some t) (ms : List μ) : run step s (m :: ms) = run step t ms := by
  rw [run, h]
  rfl

theorem run_append (ms ms' : List μ) :
    run step s (ms ++ ms') = (run step s ms).bind (run step · ms') := by
  induction ms generalizing s with
  | nil => rfl
  | cons m ms ih =>
    simp only [List.cons_append, run, Option.bind_assoc]
    exact congrArg _ (funext fun t => ih)

theorem Reaches.exists_run (h : Reaches step s t) : ∃ ms, run step s ms = some t := by
  induction h with
  | start => exact ⟨[], rfl⟩
  | move m _ hm ih =>
    obtain ⟨ms, hms⟩ := ih
    refine ⟨ms ++ [m], ?_⟩
    rw [run_append, hms]
    exact run_cons hm []

/-- What the start has, and every move hands on together with the moves so far. -/
theorem run_keeps {P : List μ → σ → Prop} (hs : P [] s)
    (hm : ∀ ms t m u, P ms t → step t m = some u → P (ms ++ [m]) u) (h : run step s ms = some t) :
    P ms t := by
  induction ms using List.reverseRecOn generalizing t with
  | nil => exact Option.some.inj h ▸ hs
  | append_singleton ms m ih =>
    rw [run_append] at h
    obtain ⟨u, hu, h⟩ := Option.bind_eq_some_iff.1 h
    obtain ⟨v, hv, h⟩ := Option.bind_eq_some_iff.1 h
    exact Option.some.inj h ▸ hm ms u m v (ih hu) hv

/-- A property holds in every state along a run. -/
def Along (step : Moves σ μ) (s : σ) (ms : List μ) (prop : σ → Prop) : Prop :=
  ∀ n t, run step s (ms.take n) = some t → prop t

/-- No move along a run is bad in the state in which it is made. -/
def Avoids (step : Moves σ μ) (s : σ) (ms : List μ) (bad : σ → μ → Prop) : Prop :=
  ∀ n m t, ms[n]? = some m → run step s (ms.take n) = some t → ¬ bad t m

theorem along_cons (h : step s m = some t) :
    Along step s (m :: ms) prop ↔ prop s ∧ Along step t ms prop := by
  constructor
  · intro hall
    refine ⟨hall 0 s rfl, fun n u hu => hall (n + 1) u ?_⟩
    rwa [List.take_succ_cons, run_cons h]
  · rintro ⟨hs, hall⟩ n u hu
    cases n with
    | zero => exact Option.some.inj hu ▸ hs
    | succ n =>
      rw [List.take_succ_cons, run_cons h] at hu
      exact hall n u hu

theorem avoids_cons (h : step s m = some t) :
    Avoids step s (m :: ms) bad ↔ ¬ bad s m ∧ Avoids step t ms bad := by
  constructor
  · intro hall
    refine ⟨hall 0 m s rfl rfl, fun n m' u hm hu => hall (n + 1) m' u hm ?_⟩
    rwa [List.take_succ_cons, run_cons h]
  · rintro ⟨hs, hall⟩ n m' u hm hu
    cases n with
    | zero =>
      cases hm
      exact Option.some.inj hu ▸ hs
    | succ n =>
      rw [List.take_succ_cons, run_cons h] at hu
      exact hall n m' u hm hu

theorem along_iff_avoids (hinv : ∀ s m t, inv s → step s m = some t → inv t)
    (hstep : ∀ s m t, inv s → prop s → step s m = some t → (prop t ↔ ¬ bad s m))
    (hi : inv s) (hp : prop s) (h : run step s ms = some u) :
    Along step s ms prop ↔ Avoids step s ms bad := by
  induction ms generalizing s with
  | nil =>
    refine iff_of_true (fun n t ht => ?_) fun n m t hm => by simp at hm
    rw [List.take_nil] at ht
    exact Option.some.inj ht ▸ hp
  | cons m ms ih =>
    obtain ⟨t, hm, h⟩ := Option.bind_eq_some_iff.1 h
    rw [along_cons hm, avoids_cons hm, ← hstep s m t hi hp hm, and_iff_right hp]
    by_cases ht : prop t
    · rw [and_iff_right ht]
      exact ih (hinv s m t hi hm) ht h
    · exact iff_of_false (fun hall => ht (hall 0 t rfl)) fun hall => ht hall.1

end Moves

end StakeQuorum
