import Mathlib.Data.List.Basic

/-! # Properties along a run

A run folds steps over what is done. When a step keeps a property exactly unless it is a bad one,
the property holds all along a run exactly when no step of the run is bad. When no step brings the
property back, it is enough that it holds at the end.
-/

namespace StakeQuorum

variable {σ α : Type} {step : σ → α → σ} {inv prop : σ → Prop} {bad : σ → α → Prop}

theorem foldl_iff (hinv : ∀ s a, inv s → inv (step s a))
    (hstep : ∀ s a, inv s → (prop (step s a) ↔ prop s ∧ ¬ bad s a)) {s : σ} (hi : inv s)
    (as : List α) : prop (as.foldl step s) ↔
      prop s ∧ ∀ n a, as[n]? = some a → ¬ bad ((as.take n).foldl step s) a := by
  induction as generalizing s with
  | nil => simp
  | cons a as ih =>
    rw [List.foldl_cons, ih (hinv s a hi), hstep s a hi, and_assoc]
    refine and_congr_right fun _ => ?_
    constructor
    · rintro ⟨ha, has⟩ n b hb
      cases n with
      | zero =>
        obtain rfl : a = b := by simpa using hb
        exact ha
      | succ n => exact has n b hb
    · intro hall
      exact ⟨hall 0 a rfl, fun n b hb => hall (n + 1) b hb⟩

theorem foldl_take_succ {as : List α} {a : α} {n : ℕ} (ha : as[n]? = some a) (s : σ) :
    (as.take (n + 1)).foldl step s = step ((as.take n).foldl step s) a := by
  rw [List.take_add_one, ha, Option.toList_some, List.foldl_concat]

/-- What holds at the start and is kept by each step of a run holds all along it. -/
theorem foldl_take_induction {p : σ → Prop} {as : List α} {s : σ} (hs : p s)
    (hstep : ∀ n a, as[n]? = some a → p ((as.take n).foldl step s) →
      p (step ((as.take n).foldl step s) a)) (n : ℕ) : p ((as.take n).foldl step s) := by
  induction n with
  | zero => exact hs
  | succ n ih =>
    cases ha : as[n]? with
    | none =>
      rw [List.take_add_one, ha]
      simpa using ih
    | some a =>
      rw [foldl_take_succ ha]
      exact hstep n a ha ih

/-- The property may depend on an invariant that a bad step breaks. -/
theorem forall_foldl_take_iff_of_kept (step : σ → α → σ) {p : σ → Prop}
    (hinv : ∀ s a, inv s → ¬ bad s a → inv (step s a))
    (hstep : ∀ s a, inv s → (p (step s a) ↔ ¬ bad s a)) {s : σ} (hi : inv s) (hp : p s)
    (as : List α) : (∀ n, p ((as.take n).foldl step s)) ↔
      ∀ n a, as[n]? = some a → ¬ bad ((as.take n).foldl step s) a := by
  constructor
  · intro hall
    have hgood : ∀ n a, as[n]? = some a → inv ((as.take n).foldl step s) →
        ¬ bad ((as.take n).foldl step s) a := by
      intro n a ha hn
      have hnext := hall (n + 1)
      rw [foldl_take_succ ha] at hnext
      exact (hstep _ a hn).1 hnext
    have hinvs := foldl_take_induction hi fun n a ha hn => hinv _ a hn (hgood n a ha hn)
    exact fun n a ha => hgood n a ha (hinvs n)
  · intro hall n
    refine (foldl_take_induction (p := fun t => inv t ∧ p t) ⟨hi, hp⟩ ?_ n).2
    intro n a ha hn
    exact ⟨hinv _ a hn.1 (hall n a ha), (hstep _ a hn.1).2 (hall n a ha)⟩

theorem forall_foldl_take_iff (hinv : ∀ s a, inv s → inv (step s a))
    (hstep : ∀ s a, inv s → prop s → (prop (step s a) ↔ ¬ bad s a)) {s : σ} (hi : inv s)
    (hp : prop s) (as : List α) : (∀ n, prop ((as.take n).foldl step s)) ↔
      ∀ n a, as[n]? = some a → ¬ bad ((as.take n).foldl step s) a := by
  have hboth (t : σ) (a : α) (ht : inv t ∧ prop t) (hn : ¬ bad t a) :
      inv (step t a) ∧ prop (step t a) := ⟨hinv t a ht.1, (hstep t a ht.1 ht.2).2 hn⟩
  have hiff (t : σ) (a : α) (ht : inv t ∧ prop t) : prop (step t a) ↔ ¬ bad t a :=
    hstep t a ht.1 ht.2
  exact forall_foldl_take_iff_of_kept step hboth hiff ⟨hi, hp⟩ hp as

end StakeQuorum
