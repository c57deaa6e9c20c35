import StakeQuorum.Proofs.Consensus.Verdict

/-! # Rounds without slow validators

When time is left and no validator is slow, a pool without open tasks answers every query at once
and is as before afterwards. The round may close before everybody has been asked, and it is decided
when everybody has been heard.
-/

namespace StakeQuorum

/-- The validator answers a query for confirmation, and the answer is yes. -/
def Validator.confirms (tx : Transaction) (v : Validator Client) : Bool :=
  match v.client with
  | none => false
  | some client => match client.confirm tx with
    | .confirmed => true
    | .refused | .raised _ | .slow => false

/-- The validator answers in time, or has no client at all. -/
def Validator.Prompt (tx : Transaction) (v : Validator Client) : Prop :=
  ∀ client, v.client = some client → client.confirm tx ≠ .slow

/-- A running pool without open tasks. -/
structure WorkerPool.Ready {τ : Type} (p : WorkerPool τ) : Prop where
  running : p.running = true
  queue : p.queue = []
  active : p.active = []
  accepting : 0 < p.limit

namespace WorkerPool.Ready

variable {τ : Type} {p : WorkerPool τ}

theorem reserve (h : p.Ready) (slots : Nat) :
    (p.reserve slots).value.Ready ∧ slots ≤ (p.reserve slots).value.workers := by
  have hneeded : p.needed slots = slots := by
    simp [needed, h.queue, h.active]
  unfold WorkerPool.reserve
  rw [h.running, hneeded]
  by_cases hfew : slots ≤ p.workers
  · simp only [hfew, Bool.not_true, Bool.false_or, decide_true, if_true]
    exact ⟨h, hfew⟩
  · simp only [hfew, Bool.not_true, Bool.false_or, decide_false, Bool.false_eq_true, if_false]
    exact ⟨⟨rfl, h.queue, h.active, h.accepting⟩, Nat.le_refl _⟩

theorem enqueue (h : p.Ready) (t : τ) : p.enqueue t = .ok { p with queue := [t] } := by
  simp [WorkerPool.enqueue, h.running, h.queue, Nat.not_le.2 h.accepting]

theorem take? (h : p.Ready) (hw : 0 < p.workers) (t : τ) :
    ({ p with queue := [t] } : WorkerPool τ).take? =
      some (t, { p with queue := [], active := [t] }) := by
  simp [WorkerPool.take?, h.active, hw]

theorem finish [BEq τ] [LawfulBEq τ] (h : p.Ready) (t : τ) :
    ({ p with queue := [], active := [t] } : WorkerPool τ).finish t = p := by
  obtain ⟨-, hqueue, hactive, -⟩ := h
  cases p
  simp_all [WorkerPool.finish]

theorem idle (h : p.Ready) : { p with queue := [], active := [] } = p := by
  obtain ⟨-, hqueue, hactive, -⟩ := h
  cases p
  simp_all

end WorkerPool.Ready

namespace Round

variable {tx : Transaction} {remaining : Int64} {p : Progress} {v : Validator Client}
  {vs : List (Validator Client)} {r : Round}

/-! ### Queries -/

theorem ask_of_prompt (hv : v.Prompt tx) (ht : 0 < remaining) :
    (ask tx remaining v).value = some (v.confirms tx) := by
  unfold ask Validator.confirms
  cases hc : v.client with
  | none => rfl
  | some client =>
    have hprompt := hv client hc
    simp only [Int64.not_le.2 ht, if_false]
    cases hr : client.confirm tx with
    | confirmed => rfl
    | refused => rfl
    | raised f => rfl
    | slow => exact absurd hr hprompt

/-- A round that is not decided yet counts the answer of a validator. -/
def hear (tx : Transaction) (r : Round) (v : Validator Client) : Round :=
  if r.isDecided then r else r.answer (v.confirms tx)

theorem query_of_ready (hp : p.pool.Ready) (hw : 0 < p.pool.workers) (hv : v.Prompt tx)
    (ht : 0 < remaining) :
    (query tx remaining p v).value = { p with round := p.round.hear tx v } := by
  unfold query hear
  rw [hp.enqueue]
  simp only [hp.take? hw]
  by_cases hd : p.round.isDecided = true
  · rw [if_pos hd, if_pos hd, hp.finish]
    rfl
  · rw [if_neg hd, if_neg hd, Traced.value_bind, ask_of_prompt hv ht, hp.finish]
    rfl

theorem queryAll_of_ready (hp : p.pool.Ready) (hw : 0 < p.pool.workers)
    (hvs : ∀ v ∈ vs, v.Prompt tx) (ht : 0 < remaining) :
    (queryAll tx remaining vs p).value = { p with round := vs.foldl (hear tx) p.round } := by
  induction vs generalizing p with
  | nil => rfl
  | cons v vs ih =>
    obtain ⟨hv, hvs⟩ := List.forall_mem_cons.1 hvs
    rw [queryAll, Traced.value_bind, query_of_ready hp hw hv ht]
    exact ih hp hw hvs

/-! ### Whole rounds -/

theorem foldl_hear_of_isDecided (hd : r.isDecided = true) : vs.foldl (hear tx) r = r := by
  induction vs with
  | nil => rfl
  | cons v vs ih => rw [List.foldl_cons, hear, if_pos hd, ih]

theorem isDecided_foldl_hear (tx : Transaction) (vs : List (Validator Client)) (h : Tallied r)
    (hall : r.confirmations.toNat + r.refusals.toNat + vs.length = r.size.toNat) :
    (vs.foldl (hear tx) r).isDecided = true := by
  induction vs generalizing r with
  | nil => exact h.isDecided_iff.2 (.inr (.inr hall))
  | cons v vs ih =>
    rw [List.length_cons] at hall
    by_cases hd : r.isDecided = true
    · rwa [foldl_hear_of_isDecided hd]
    · have hfree : r.confirmations.toNat + r.refusals.toNat < r.size.toNat := by omega
      rw [List.foldl_cons, hear, if_neg hd]
      refine ih (h.answer (v.confirms tx) hfree) ?_
      rw [h.confirmations_answer _ hfree, h.refusals_answer _ hfree, size_answer]
      cases v.confirms tx <;> simp <;> omega

theorem ready_collect {pool : AskingPool} {timeout : Int64} {times : Times}
    (hp : pool.Ready) (hvs : ∀ v ∈ vs, v.Prompt tx)
    (ht : 0 < (Deadline.after times.start timeout).remaining times.asking) :
    (collect pool timeout times tx vs).value.2.Ready := by
  cases vs with
  | nil => exact hp
  | cons v vs =>
    let r : Round := { size := UInt64.ofNat (v :: vs).length }
    obtain ⟨hpool, hworkers⟩ := hp.reserve (v :: vs).length
    have hall := queryAll_of_ready (p := ⟨r, (pool.reserve (v :: vs).length).value⟩) hpool
      (Nat.lt_of_lt_of_le (Nat.succ_pos _) hworkers) hvs ht
    have hvalue : (collect pool timeout times tx (v :: vs)).value.2 = (Progress.mk
        ((v :: vs).foldl (hear tx) r) (pool.reserve (v :: vs).length).value).close.pool := by
      simp only [collect, List.isEmpty_cons, Bool.false_eq_true, if_false, Traced.value_bind,
        Traced.value_pure]
      rw [hall]
    rw [hvalue]
    unfold Progress.close
    split
    · exact hpool
    · rw [hpool.idle]
      exact hpool

end Round

end StakeQuorum
