import StakeQuorum.Consensus.Shared

/-! # The calls of a manager

A validation that nobody interrupts is one course of the steps that concurrent callers make: it
notes the validators when the signature and the time are in order, extends the chain when there is a
quorum, and counts the outcome, as a rejection also when the clock failed.
-/

namespace StakeQuorum.Consensus

namespace Manager

/-- How a validation may end: it leaves at most the validators behind and does not accept, or it
extends the chain and accepts if it can read the clock. -/
def Ends (before : State) (validators : List (Validator Client)) (tx : Transaction)
    (out : Except Failure Bool × Manager × Clock) : Prop :=
  (out.1 ≠ .ok true ∧
    (out.2.1.state = before ∨ out.2.1.state = before.observe validators)) ∨
  (∃ now, out.1 = .ok true ∧
    out.2.1.state = ((before.observe validators).extend tx.hash).stamp now) ∨
  ∃ f, out.1 = .error f ∧ out.2.1.state = (before.observe validators).extend tx.hash

variable (s : SignatureScheme) (m : Manager) (env : Surroundings) (clock : Clock) (tx : Transaction)

theorem ends_accept {before : State} {validators : List (Validator Client)} {size : Nat}
    {confirmations : UInt64} (h : m.state = before.observe validators) :
    Ends before validators tx (m.accept clock tx.hash confirmations size).value := by
  unfold accept Ends
  rw [← h]
  rcases clock.read with ⟨now | now, clock⟩
  · exact .inr (.inr ⟨_, rfl, rfl⟩)
  · exact .inr (.inl ⟨_, rfl, rfl⟩)

theorem ends_decide : Ends m.state env.validators tx (m.decide env clock tx).value := by
  unfold decide
  split
  · exact .inl ⟨by simp [reject], .inr rfl⟩
  · rw [Traced.value_bind]
    simp only []
    split
    · exact ends_accept _ _ _ rfl
    · exact .inl ⟨by simp [reject], .inr rfl⟩

theorem ends_run : Ends m.state env.validators tx (m.run s env clock tx).value := by
  unfold run
  split
  · exact .inl ⟨by simp [reject], .inl rfl⟩
  · split
    · exact .inl ⟨by simp, .inl rfl⟩
    · exact .inl ⟨by simp [reject], .inl rfl⟩
    · exact ends_decide ..

def verdict : Except Failure Bool → Bool
  | .ok accepted => accepted
  | .error _ => false

theorem verdict_eq_false {result : Except Failure Bool} (h : result ≠ .ok true) :
    verdict result = false := by
  rcases result with _ | _ | _
  · rfl
  · rfl
  · exact absurd rfl h

theorem validate_eq :
    let out := (m.run s env clock tx).value
    (m.validate s env clock tx).value.1 = verdict out.1 ∧
      (m.validate s env clock tx).value.2.1.state = out.2.1.state.count (verdict out.1) := by
  unfold validate
  rw [Traced.value_bind]
  rcases (m.run s env clock tx).value with ⟨_ | _, m', clock'⟩ <;> exact ⟨rfl, rfl⟩

end Manager

namespace Shared

def latest (g : Shared) (tx : Transaction) (stage : Stage) (state : State)
    (chain : List Transaction) : Shared :=
  { state, chain, calls := g.calls ++ [⟨tx, stage⟩] }

variable (g : Shared) (tx : Transaction) (state : State) (chain : List Transaction)

theorem latest_observe (validators : List (Validator Client)) :
    (g.latest tx .checking state chain).step (.observe g.calls.length validators) =
      some (g.latest tx .asking (state.observe validators) chain) := by
  simp [step, latest, advance]

theorem latest_stamp (now : Int64) :
    (g.latest tx .asking state chain).step (.extend g.calls.length (some now)) =
      some (g.latest tx (.chained true) ((state.extend tx.hash).stamp now) (chain ++ [tx])) := by
  simp [step, latest, advance]

theorem latest_extend :
    (g.latest tx .asking state chain).step (.extend g.calls.length none) =
      some (g.latest tx (.chained false) (state.extend tx.hash) (chain ++ [tx])) := by
  simp [step, latest, advance]

theorem latest_count {stage : Stage} {accepts : Bool} (h : stage = .chained true ∧ accepts = true ∨
      stage ∈ [.checking, .asking, .chained false] ∧ accepts = false) :
    (g.latest tx stage state chain).step (.count g.calls.length) =
      some (g.latest tx (.over accepts) (state.count accepts) chain) := by
  rcases h with ⟨rfl, rfl⟩ | ⟨hstage, rfl⟩
  · simp [step, latest, advance]
  · simp only [List.mem_cons, List.not_mem_nil, or_false] at hstage
    rcases hstage with rfl | rfl | rfl <;> simp [step, latest, advance]

end Shared

namespace Manager

/-- A call of a manager makes moves of this kind, and no one else in between. -/
theorem validate_reaches (s : SignatureScheme) (m : Manager) (env : Surroundings) (clock : Clock)
    (tx : Transaction) {g : Shared} (hg : g.state = m.state) : ∃ g',
    Moves.Reaches Shared.step g g' ∧ g'.state = (m.validate s env clock tx).value.2.1.state ∧
      g'.calls = g.calls ++ [⟨tx, .over (m.validate s env clock tx).value.1⟩] := by
  obtain ⟨hverdict, hstate⟩ := validate_eq s m env clock tx
  rw [hverdict, hstate]
  have hentered : Moves.Reaches Shared.step g (g.latest tx .checking g.state g.chain) :=
    Moves.Reaches.start.move (.enter tx) rfl
  have hobserved := hentered.move _ (g.latest_observe tx g.state g.chain env.validators)
  rcases ends_run s m env clock tx with ⟨hno, hbefore | hbefore⟩ | ⟨now, hyes, hafter⟩ |
    ⟨f, hfail, hafter⟩
  · rw [verdict_eq_false hno, hbefore, ← hg]
    exact ⟨_, hentered.move _ (g.latest_count _ _ _ (.inr ⟨by simp, rfl⟩)), rfl, rfl⟩
  · rw [verdict_eq_false hno, hbefore, ← hg]
    exact ⟨_, hobserved.move _ (g.latest_count _ _ _ (.inr ⟨by simp, rfl⟩)), rfl, rfl⟩
  · rw [hyes, hafter, ← hg]
    have hstamped := hobserved.move _ (g.latest_stamp _ _ _ now)
    exact ⟨_, hstamped.move _ (g.latest_count _ _ _ (.inl ⟨rfl, rfl⟩)), rfl, rfl⟩
  · rw [hfail, hafter, ← hg]
    have hextended := hobserved.move _ (g.latest_extend _ _ _)
    exact ⟨_, hextended.move _ (g.latest_count _ _ _ (.inr ⟨by simp, rfl⟩)), rfl, rfl⟩

end Manager

end StakeQuorum.Consensus
