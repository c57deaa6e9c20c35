/-! # Interleavings

A system of concurrent parts goes on by moves. Each move is one atomic step of one part, and a move
that is not possible in a state has no result. Whatever holds at the start and is kept by every move
holds however the parts are scheduled.
-/

namespace StakeQuorum

/-- What each move does to a state. -/
abbrev Moves (σ μ : Type) := σ → μ → Option σ

namespace Moves

variable {σ μ : Type} {step : Moves σ μ} {s t u : σ}

def run (step : Moves σ μ) : σ → List μ → Option σ
  | s, [] => some s
  | s, m :: ms => (step s m).bind (run step · ms)

/-- Some interleaving of moves leads from one state to another. -/
inductive Reaches (step : Moves σ μ) (s : σ) : σ → Prop
  | start : Reaches step s s
  | move {t u : σ} (m : μ) : Reaches step s t → step t m = some u → Reaches step s u

namespace Reaches

theorem trans (h : Reaches step s t) (h' : Reaches step t u) : Reaches step s u := by
  induction h' with
  | start => exact h
  | move m _ hm ih => exact ih.move m hm

theorem of_run {ms : List μ} (h : run step s ms = some t) : Reaches step s t := by
  induction ms generalizing s with
  | nil => cases h; exact .start
  | cons m ms ih =>
    obtain ⟨s', hm, h'⟩ := Option.bind_eq_some_iff.1 h
    exact (start.move m hm).trans (ih h')

/-- A property of the start that every move keeps. -/
theorem keeps {P : σ → Prop} (hs : P s) (hm : ∀ s m s', P s → step s m = some s' → P s')
    (h : Reaches step s t) : P t := by
  induction h with
  | start => exact hs
  | move m _ h ih => exact hm _ m _ ih h

end Reaches

end Moves

end StakeQuorum
