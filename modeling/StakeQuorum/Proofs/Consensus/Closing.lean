import StakeQuorum.Consensus.Course
import StakeQuorum.Proofs.Consensus.Tally

/-! # Closing a round early

However the answers of a round come in, no validator is counted twice. A round that closes because
it is decided has the verdict that all answers would have given it, and one that runs into the
deadline has a quorum only if more than two thirds of the validators confirmed. A round in which
validators are asked in turn is one of its courses, and if nobody is slow, it has the verdict that
every order of the answers would have led to.
-/

namespace StakeQuorum.Round.Course

open Moves (Reaches)

variable {n : UInt64} {c c' : Course} {m : Move} {v : Nat} {confirms : Bool}

/-! ### Answers -/

/-- Answers of different validators among the first `n`. -/
structure Distinct (n : Nat) (answers : List (Nat × Bool)) : Prop where
  named : ∀ a ∈ answers, a.1 < n
  once : (answers.map (·.1)).Nodup

theorem Distinct.subperm {n : Nat} {answers : List (Nat × Bool)} (h : Distinct n answers) :
    (answers.map (·.1)).Subperm (List.range n) := by
  refine List.subperm_of_subset h.once ?_
  intro v hv
  obtain ⟨a, ha, rfl⟩ := List.mem_map.1 hv
  exact List.mem_range.2 (h.named a ha)

theorem Distinct.length_le {n : Nat} {answers : List (Nat × Bool)} (h : Distinct n answers) :
    answers.length ≤ n := by
  simpa using h.subperm.length_le

theorem countP_range {α : Type} (xs : List α) (p : α → Bool) :
    (List.range xs.length).countP (fun i => xs[i]?.any p) = xs.countP p := by
  have hxs : (List.range xs.length).map (xs[·]?) = xs.map some := by
    apply List.ext_getElem <;> simp
  have hcount := congrArg (List.countP (Option.any p)) hxs
  rwa [List.countP_map, List.countP_map] at hcount

theorem Distinct.countP_le {α : Type} {xs : List α} {f : α → Bool} {answers : List (Nat × Bool)}
    (h : Distinct xs.length answers) (hf : ∀ a ∈ answers, ∃ x, xs[a.1]? = some x ∧ a.2 = f x)
    (p : Bool → Bool) : answers.countP (p ·.2) ≤ xs.countP (p <| f ·) := by
  have hsame : answers.countP (p ·.2) =
      (answers.map (·.1)).countP fun i => xs[i]?.any (p <| f ·) := by
    rw [List.countP_map]
    refine List.countP_congr fun a ha => ?_
    obtain ⟨x, hx, hanswer⟩ := hf a ha
    simp [hx, hanswer]
  rw [hsame, ← countP_range xs]
  exact List.Subperm.countP_le _ h.subperm

theorem Distinct.cons {n : Nat} {answers : List (Nat × Bool)} (h : Distinct n answers)
    (hv : v < n) (hnew : v ∉ answers.map (·.1)) (confirms : Bool) :
    Distinct n ((v, confirms) :: answers) where
  named := List.forall_mem_cons.2 ⟨hv, h.named⟩
  once := List.nodup_cons.2 ⟨hnew, h.once⟩

def refusing (c : Course) : Nat := c.answers.countP (!·.2)

theorem confirming_add_refusing (c : Course) : c.confirming + c.refusing = c.answers.length := by
  rw [confirming, refusing, List.length_eq_countP_add_countP (·.2)]
  simp

/-! ### Moves -/

theorem step_answer (h : c.step (.answer v confirms) = some c') :
    v < c.round.size.toNat ∧ v ∉ c.answers.map (·.1) ∧ c' = { c with
      round := if c.isOpen then c.round.answer confirms else c.round
      answers := (v, confirms) :: c.answers } := by
  simp only [step, Option.ite_none_right_eq_some, Bool.and_eq_true, decide_eq_true_eq,
    Bool.not_eq_true', Option.some.injEq] at h
  obtain ⟨⟨hv, hnew⟩, rfl⟩ := h
  refine ⟨hv, ?_, rfl⟩
  intro hm
  obtain ⟨a, ha, rfl⟩ := List.mem_map.1 hm
  have hany : c.hasAnswered a.1 = true := List.any_eq_true.2 ⟨a, ha, beq_self_eq_true a.1⟩
  rw [hnew] at hany
  exact absurd hany (by simp)

theorem confirming_of_step (h : c.step (.answer v confirms) = some c') :
    c'.confirming = c.confirming + if confirms then 1 else 0 := by
  obtain ⟨-, -, rfl⟩ := step_answer h
  exact List.countP_cons

theorem refusing_of_step (h : c.step (.answer v confirms) = some c') :
    c'.refusing = c.refusing + if confirms then 0 else 1 := by
  obtain ⟨-, -, rfl⟩ := step_answer h
  refine List.countP_cons.trans ?_
  cases confirms <;> rfl

theorem step_close (h : c.step .close = some c') :
    c.isOpen = true ∧ c.round.isDecided = true ∧ c' = { c with closing := some .decided } := by
  simp only [step, Option.ite_none_right_eq_some, Bool.and_eq_true, Option.some.injEq] at h
  exact ⟨h.1.1, h.1.2, h.2.symm⟩

theorem step_expire (h : c.step .expire = some c') :
    c.isOpen = true ∧ c' = { c with closing := some .deadline } := by
  simp only [step, Option.ite_none_right_eq_some, Option.some.injEq] at h
  exact ⟨h.1, h.2.symm⟩

/-! ### What holds in every course -/

/-- A course of a round among `n` validators counts what has been answered, as long as it is
open. -/
structure Sound (n : UInt64) (c : Course) : Prop where
  size : c.round.size = n
  distinct : Distinct n.toNat c.answers
  confirmed : c.round.confirmations.toNat ≤ c.confirming
  refused : c.round.refusals.toNat ≤ c.refusing
  counted : c.isOpen = true →
    c.round.confirmations.toNat = c.confirming ∧ c.round.refusals.toNat = c.refusing
  decided : c.closing = some .decided → c.round.isDecided = true

theorem sound_start (n : UInt64) : Sound n (start n) where
  size := rfl
  distinct := ⟨by simp [start], List.nodup_nil⟩
  confirmed := Nat.le_refl 0
  refused := Nat.le_refl 0
  counted _ := ⟨rfl, rfl⟩
  decided := by simp [start]

namespace Sound

theorem tallied (hn : n.toNat < 2 ^ 63) (h : Sound n c) : Tallied c.round := by
  have hlen := h.distinct.length_le
  have hsum := c.confirming_add_refusing
  have hyes := h.confirmed
  have hno := h.refused
  rw [← h.size] at hn hlen
  exact ⟨hn, by omega⟩

theorem answer (hn : n.toNat < 2 ^ 63) (h : Sound n c)
    (hs : c.step (.answer v confirms) = some c') : Sound n c' := by
  have hyes := confirming_of_step hs
  have hno := refusing_of_step hs
  obtain ⟨hv, hnew, hc'⟩ := step_answer hs
  have hround : c'.round = if c.isOpen then c.round.answer confirms else c.round := by rw [hc']
  have hclosing : c'.closing = c.closing := by rw [hc']
  have hdistinct : Distinct n.toNat c'.answers :=
    hc' ▸ h.distinct.cons (h.size ▸ hv) hnew confirms
  by_cases hopen : c.isOpen = true
  · obtain ⟨hc, hr⟩ := h.counted hopen
    have hroom : c.round.confirmations.toNat + c.round.refusals.toNat < c.round.size.toNat := by
      have hlen := hdistinct.length_le
      rw [← c'.confirming_add_refusing, hyes, hno, ← h.size] at hlen
      cases confirms <;> simp at hlen <;> omega
    have hcount := (h.tallied hn).confirmations_answer confirms hroom
    have hcount' := (h.tallied hn).refusals_answer confirms hroom
    rw [if_pos hopen] at hround
    rw [← hround, hc, ← hyes] at hcount
    rw [← hround, hr, ← hno] at hcount'
    refine ⟨?_, hdistinct, Nat.le_of_eq hcount, Nat.le_of_eq hcount', fun _ => ⟨hcount, hcount'⟩,
      ?_⟩
    · rw [hround, size_answer, h.size]
    · intro hclosed
      simp [isOpen, ← hclosing, hclosed] at hopen
  · rw [if_neg hopen] at hround
    refine ⟨hround ▸ h.size, hdistinct, ?_, ?_, ?_, ?_⟩
    · rw [hround, hyes]
      exact Nat.le_trans h.confirmed (Nat.le_add_right ..)
    · rw [hround, hno]
      exact Nat.le_trans h.refused (Nat.le_add_right ..)
    · intro ho
      exact absurd (by rwa [isOpen, ← hclosing]) hopen
    · rw [hclosing, hround]
      exact h.decided

theorem step (hn : n.toNat < 2 ^ 63) (h : Sound n c) (hs : c.step m = some c') : Sound n c' := by
  cases m with
  | answer v confirms => exact h.answer hn hs
  | close =>
    obtain ⟨-, hd, rfl⟩ := step_close hs
    exact ⟨h.size, h.distinct, h.confirmed, h.refused, fun ho => absurd ho (by simp [isOpen]),
      fun _ => hd⟩
  | expire =>
    obtain ⟨-, rfl⟩ := step_expire hs
    exact ⟨h.size, h.distinct, h.confirmed, h.refused, fun ho => absurd ho (by simp [isOpen]),
      fun hd => absurd hd (by simp)⟩

theorem of_reaches (hn : n.toNat < 2 ^ 63) (h : Reaches Course.step (start n) c) : Sound n c :=
  h.keeps (sound_start n) fun _ _ _ h hs => h.step hn hs

end Sound

theorem round_of_reaches (hc : c.isOpen = false) (h : Reaches Course.step c c') :
    c'.isOpen = false ∧ c'.round = c.round := by
  refine h.keeps (P := fun d => d.isOpen = false ∧ d.round = c.round) ⟨hc, rfl⟩ ?_
  rintro d m d' ⟨hd, hr⟩ hs
  cases m with
  | answer v confirms =>
    obtain ⟨-, -, rfl⟩ := step_answer hs
    exact ⟨hd, by simp [hd, hr]⟩
  | close => exact absurd (step_close hs).1 (by simp [hd])
  | expire => exact absurd (step_expire hs).1 (by simp [hd])

/-! ### Validators that are asked in turn -/

/-- Every answer is one that the validator at its place may give. -/
def AnsweredBy (may : Validator Client → Bool → Prop) (vs : List (Validator Client))
    (c : Course) : Prop :=
  ∀ a ∈ c.answers, ∃ v, vs[a.1]? = some v ∧ may v a.2

section Asking

variable {may : Validator Client → Bool → Prop} {inv : AskingPool → Prop} {tx : Transaction}
  {remaining : Int64} {v : Validator Client} {asked vs : List (Validator Client)} {p : Progress}

/-- Nothing is heard from a validator, or an answer of this kind. -/
def Hears (may : Bool → Prop) (r r' : Round) : Prop :=
  r' = r ∨ ∃ confirms, may confirms ∧ r' = r.answer confirms

theorem query_hears (tx : Transaction) (remaining : Int64) (p : Progress) (v : Validator Client) :
    Hears (fun _ => True) p.round (query tx remaining p v).value.round := by
  unfold query
  cases p.pool.enqueue v.identity with
  | error e => exact .inr ⟨false, trivial, rfl⟩
  | ok pool =>
    simp only
    split
    · exact .inl rfl
    · split
      · exact .inl rfl
      · rw [Traced.value_bind]
        cases (ask tx remaining v).value with
        | none => exact .inl rfl
        | some confirms => exact .inr ⟨confirms, trivial, rfl⟩

theorem AnsweredBy.append (h : c.AnsweredBy may asked) (vs : List (Validator Client)) :
    c.AnsweredBy may (asked ++ vs) := by
  intro a ha
  obtain ⟨v, hv, hmay⟩ := h a ha
  refine ⟨v, ?_, hmay⟩
  rwa [List.getElem?_append_left (List.getElem?_eq_some_iff.1 hv).1]

theorem AnsweredBy.step (h : c.AnsweredBy may asked) (hopen : c.isOpen = true)
    (hsize : asked.length < c.round.size.toNat) (hmay : may v confirms) :
    ∃ c', c.step (.answer asked.length confirms) = some c' ∧ c'.isOpen = true ∧
      c'.round = c.round.answer confirms ∧ c'.AnsweredBy may (asked ++ [v]) := by
  have hnew : c.hasAnswered asked.length = false := by
    rw [hasAnswered, List.any_eq_false]
    intro a ha hplace
    obtain ⟨w, hw, -⟩ := h a ha
    rw [beq_iff_eq.1 hplace] at hw
    simp at hw
  refine ⟨{ c with
    round := c.round.answer confirms, answers := (asked.length, confirms) :: c.answers },
    by simp [Course.step, hsize, hnew, hopen], hopen, rfl, ?_⟩
  intro a ha
  rcases List.mem_cons.1 ha with rfl | ha
  · exact ⟨v, by simp, hmay⟩
  · exact h.append [v] a ha

theorem reaches_queryAll
    (hquery : ∀ p, ∀ v ∈ vs, inv p.pool → inv (query tx remaining p v).value.pool ∧
      Hears (may v) p.round (query tx remaining p v).value.round)
    (hp : inv p.pool) (hround : p.round = c.round) (hopen : c.isOpen = true)
    (hsize : c.round.size.toNat = (asked ++ vs).length) (hasked : c.AnsweredBy may asked) :
    ∃ c', Reaches Course.step c c' ∧ c'.isOpen = true ∧
      c'.round = (queryAll tx remaining vs p).value.round ∧ c'.AnsweredBy may (asked ++ vs) := by
  induction vs generalizing c p asked with
  | nil => exact ⟨c, .start, hopen, hround.symm, hasked.append []⟩
  | cons v vs ih =>
    have hvs (p : Progress) (w : Validator Client) (hw : w ∈ vs) :=
      hquery p w (List.mem_cons_of_mem v hw)
    rw [queryAll, Traced.value_bind, List.append_cons]
    rw [List.append_cons] at hsize
    obtain ⟨hp', hsame | ⟨confirms, hmay, hanswer⟩⟩ := hquery p v List.mem_cons_self hp
    · exact ih hvs hp' (hsame.trans hround) hopen hsize (hasked.append [v])
    · obtain ⟨c', hstep, hopen', hround', hasked'⟩ :=
        hasked.step hopen (by rw [hsize]; simp) hmay
      obtain ⟨d, hreach, hd⟩ := ih hvs hp' (by rw [hanswer, hround, hround']) hopen'
        (by rw [hround', size_answer, hsize]) hasked'
      exact ⟨d, (Reaches.start.move _ hstep).trans hreach, hd⟩

theorem reaches_closing (hopen : c.isOpen = true) :
    Reaches Course.step c { c with
      closing := some (if c.round.isDecided then .decided else .deadline) } := by
  by_cases hd : c.round.isDecided = true
  · exact Reaches.start.move .close (by simp [step, hopen, hd])
  · exact Reaches.start.move .expire (by simp [step, hopen, hd])

def progress (pool : AskingPool) (timeout : Int64) (times : Times) (tx : Transaction)
    (vs : List (Validator Client)) : Progress :=
  (queryAll tx ((Deadline.after times.start timeout).remaining times.asking) vs
    ⟨{ size := UInt64.ofNat vs.length }, (pool.reserve vs.length).value⟩).value

theorem value_collect_fst (pool : AskingPool) (timeout : Int64) (times : Times)
    (tx : Transaction) (vs : List (Validator Client)) :
    (collect pool timeout times tx vs).value.1 =
      (progress pool timeout times tx vs).round.confirmations := by
  cases vs with
  | nil => rfl
  | cons v vs => rfl

/-- A round in which validators are asked in turn takes one of these courses, and runs into the
deadline unless it is decided. -/
theorem collect_reaches (may : Validator Client → Bool → Prop) (inv : AskingPool → Prop)
    {pool : AskingPool} {timeout : Int64} {times : Times}
    (hlen : vs.length < UInt64.size) (hpool : inv (pool.reserve vs.length).value)
    (hquery : ∀ p, ∀ v ∈ vs, inv p.pool →
      let p' := (query tx ((Deadline.after times.start timeout).remaining times.asking) p v).value
      inv p'.pool ∧ Hears (may v) p.round p'.round) :
    ∃ c, Reaches Course.step (start (UInt64.ofNat vs.length)) c ∧ c.AnsweredBy may vs ∧
      c.closing = some (if c.round.isDecided then .decided else .deadline) ∧
      c.round = (progress pool timeout times tx vs).round ∧
      c.result = (collect pool timeout times tx vs).value.1 := by
  have hnobody : (start (UInt64.ofNat vs.length)).AnsweredBy may [] := by
    simp [AnsweredBy, start]
  obtain ⟨c, hreach, hopen, hround, hanswered⟩ := reaches_queryAll
    (p := ⟨{ size := UInt64.ofNat vs.length }, (pool.reserve vs.length).value⟩) hquery hpool
    rfl rfl (UInt64.toNat_ofNat_of_lt hlen) hnobody
  refine ⟨_, hreach.trans (reaches_closing hopen), hanswered, rfl, hround, ?_⟩
  exact (congrArg Round.confirmations hround).trans (value_collect_fst ..).symm

theorem hear_hears (tx : Transaction) (r : Round) (v : Validator Client) :
    Hears (· = v.confirms tx) r (r.hear tx v) := by
  unfold hear
  split
  · exact .inl rfl
  · exact .inr ⟨_, rfl, rfl⟩

theorem isDecided_progress {pool : AskingPool} {timeout : Int64} {times : Times} (hp : pool.Ready)
    (hvs : ∀ v ∈ vs, v.Prompt tx)
    (ht : 0 < (Deadline.after times.start timeout).remaining times.asking)
    (hlen : vs.length < 2 ^ 63) : (progress pool timeout times tx vs).round.isDecided = true := by
  cases vs with
  | nil =>
    change Round.isDecided { size := 0 } = true
    decide
  | cons v vs =>
    have hsize := Quorum.toNat_ofNat_of_few hlen
    obtain ⟨hpool, hworkers⟩ := hp.reserve (v :: vs).length
    have hall := queryAll_of_ready
      (p := ⟨{ size := UInt64.ofNat (v :: vs).length }, (pool.reserve (v :: vs).length).value⟩)
      hpool (Nat.lt_of_lt_of_le (Nat.succ_pos _) hworkers) hvs ht
    rw [progress, hall]
    exact isDecided_foldl_hear tx _ ⟨by rwa [hsize], by simp⟩ (by rw [hsize]; simp)

/-- A round in which nobody is slow closes because it is decided, on what each validator says. -/
theorem collect_decides {pool : AskingPool} {timeout : Int64} {times : Times} (hp : pool.Ready)
    (hvs : ∀ v ∈ vs, v.Prompt tx)
    (ht : 0 < (Deadline.after times.start timeout).remaining times.asking)
    (hlen : vs.length < 2 ^ 63) :
    ∃ c, Reaches Course.step (start (UInt64.ofNat vs.length)) c ∧
      c.AnsweredBy (fun v confirms => confirms = v.confirms tx) vs ∧
      c.closing = some .decided ∧ c.result = (collect pool timeout times tx vs).value.1 := by
  obtain ⟨c, hreach, hanswered, hclosing, hround, hresult⟩ :=
    collect_reaches (fun v confirms => confirms = v.confirms tx)
      (fun q => q.Ready ∧ vs.length ≤ q.workers) (Nat.lt_trans hlen (by decide))
      (hp.reserve vs.length) (by
        rintro p v hv ⟨hpool, hworkers⟩ p'
        have hquery : p' = { p with round := p.round.hear tx v } :=
          query_of_ready hpool (Nat.lt_of_lt_of_le (List.length_pos_of_mem hv) hworkers)
            (hvs v hv) ht
        rw [hquery]
        exact ⟨⟨hpool, hworkers⟩, hear_hears tx p.round v⟩)
  have hdecided : c.round.isDecided = true := hround ▸ isDecided_progress hp hvs ht hlen
  exact ⟨c, hreach, hanswered, by rw [hclosing, if_pos hdecided], hresult⟩

end Asking

/-! ### The verdict -/

/-- If the round closes because it is decided, then whatever answers still come in, a quorum of all
confirmations is a quorum of those that were counted. -/
theorem Sound.verdict (hn : n.toNat < 2 ^ 63) (h : Sound n c) (hclosed : c.closing = some .decided)
    (h' : Sound n c') (hround : c'.round = c.round) :
    Quorum.reached c.result n = Quorum.reached (UInt64.ofNat c'.confirming) n := by
  have hlow : c.round.confirmations.toNat ≤ c'.confirming := hround ▸ h'.confirmed
  have hhigh : c'.confirming + c.round.refusals.toNat ≤ c.round.size.toNat := by
    have hlen := h'.distinct.length_le
    rw [← c'.confirming_add_refusing] at hlen
    have hno := h'.refused
    rw [hround] at hno
    rw [h.size]
    omega
  have hstands := (h.tallied hn).verdict_stands (h.decided hclosed) hlow hhigh
  rwa [h.size] at hstands

theorem Sound.decided_of_complete (hn : n.toNat < 2 ^ 63) (h : Sound n c)
    (hclosing : c.closing ≠ some .deadline) (hall : c.isComplete = true) :
    c.round.isDecided = true := by
  rcases hc : c.closing with _ | closing
  · obtain ⟨hyes, hno⟩ := h.counted (by rw [isOpen, hc]; rfl)
    rw [isComplete, beq_iff_eq, ← c.confirming_add_refusing, ← hyes, ← hno] at hall
    exact (h.tallied hn).isDecided_iff.2 (.inr (.inr hall))
  · cases closing with
    | decided => exact h.decided hc
    | deadline => exact absurd hc hclosing

/-- If every answer is what its validator says, then a round that closes because it is decided has
the verdict of all validators. -/
theorem Sound.reached_iff {tx : Transaction} {vs : List (Validator Client)}
    (hlen : vs.length < 2 ^ 63) (h : Sound (UInt64.ofNat vs.length) c)
    (hanswered : c.AnsweredBy (fun v confirms => confirms = v.confirms tx) vs)
    (hclosed : c.closing = some .decided) :
    Quorum.reached c.result (UInt64.ofNat vs.length) = true ↔
      2 * vs.length < 3 * vs.countP (·.confirms tx) := by
  have hsize := Quorum.toNat_ofNat_of_few hlen
  have hn : (UInt64.ofNat vs.length).toNat < 2 ^ 63 := by rwa [hsize]
  have hdistinct : Distinct vs.length c.answers := hsize ▸ h.distinct
  have hyes : c.confirming ≤ vs.countP (·.confirms tx) := hdistinct.countP_le hanswered id
  have hno : c.refusing ≤ vs.countP (!·.confirms tx) := hdistinct.countP_le hanswered not
  have hall : vs.countP (·.confirms tx) + vs.countP (!·.confirms tx) = vs.length := by
    rw [List.length_eq_countP_add_countP (·.confirms tx)]
    simp
  have hstands := (h.tallied hn).verdict_stands (h.decided hclosed)
    (h.confirmed.trans hyes) (by
      have hrefused := h.refused
      rw [h.size, hsize]
      omega)
  rw [h.size] at hstands
  rw [result, hstands, Quorum.reached_ofNat_iff hlen List.countP_le_length]

theorem reached_collect_iff {tx : Transaction} {vs : List (Validator Client)} {pool : AskingPool}
    {timeout : Int64} {times : Times} (hp : pool.Ready) (hvs : ∀ v ∈ vs, v.Prompt tx)
    (ht : 0 < (Deadline.after times.start timeout).remaining times.asking)
    (hlen : vs.length < 2 ^ 63) :
    Quorum.reached (collect pool timeout times tx vs).value.1 (UInt64.ofNat vs.length) = true ↔
      2 * vs.length < 3 * vs.countP (·.confirms tx) := by
  obtain ⟨c, hreach, hanswered, hclosed, hresult⟩ := collect_decides hp hvs ht hlen
  have hsize := Quorum.toNat_ofNat_of_few hlen
  rw [← hresult]
  exact (Sound.of_reaches (by rwa [hsize]) hreach).reached_iff hlen hanswered hclosed

/-- Rounds among fewer than `2 ^ 63` validators close soundly, in whatever order answers and the
deadline come. -/
theorem closes_soundly (hn : n.toNat < 2 ^ 63) (h : Reaches Course.step (start n) c) :
    c.round.size = n ∧
    c.round.confirmations.toNat + c.round.refusals.toNat ≤ n.toNat ∧
    c.round.refusals ≤ n ∧
    (c.closing = some .decided → ∀ c', Reaches Course.step c c' →
      c'.result = c.result ∧
        Quorum.reached c.result n = Quorum.reached (UInt64.ofNat c'.confirming) n) ∧
    (c.closing = some .deadline → Quorum.reached c.result n = true →
      2 * n.toNat < 3 * c.confirming) ∧
    (c.isComplete = true → c.closing ≠ some .deadline → c.round.isDecided = true) ∧
    ∀ (pool : AskingPool) (timeout : Int64) (times : Times) (tx : Transaction)
      (vs : List (Validator Client)), vs.length = n.toNat →
      ∃ d, Reaches Course.step (start n) d ∧
        d.closing = some (if d.round.isDecided then .decided else .deadline) ∧
        d.result = (collect pool timeout times tx vs).value.1 := by
  have hs := Sound.of_reaches hn h
  refine ⟨hs.size, hs.size ▸ (hs.tallied hn).bounded, ?_, ?_, ?_, ?_, ?_⟩
  · have hle := (hs.tallied hn).refusals_le
    rwa [hs.size] at hle
  · intro hclosed c' h'
    obtain ⟨-, hround⟩ := round_of_reaches (by simp [isOpen, hclosed]) h'
    exact ⟨congrArg (·.confirmations) hround,
      hs.verdict hn hclosed (Sound.of_reaches hn (h.trans h')) hround⟩
  · intro _ hquorum
    have hthirds := (Quorum.reached_iff hn).1 hquorum
    have hyes : c.result.toNat ≤ c.confirming := hs.confirmed
    omega
  · intro hall hclosing
    exact hs.decided_of_complete hn hclosing hall
  · intro pool timeout times tx vs hvs
    obtain ⟨d, hreach, -, hclosing, -, hresult⟩ :=
      collect_reaches (fun _ _ => True) (fun _ => True) (hvs ▸ n.toNat_lt) trivial
        (fun p v _ _ => ⟨trivial, query_hears ..⟩)
    rw [hvs, UInt64.ofNat_toNat] at hreach
    exact ⟨d, hreach, hclosing, hresult⟩

/-- Three of four validators confirm and the round closes before the last one refuses. -/
theorem closes_soundly_threeOfFour :
    (4 : UInt64).toNat < 2 ^ 63 ∧
    ∃ c, Reaches Course.step (start 4) c ∧ c.closing = some .decided ∧ c.result = 3 ∧
      c.confirming = 3 ∧ c.round.refusals ≤ 4 := by
  let moves : List Move :=
    [.answer 3 true, .answer 2 true, .answer 1 true, .close, .answer 0 false]
  have hmoves : Moves.run Course.step (start 4) moves =
      some ⟨⟨4, 3, 0⟩, [(0, false), (1, true), (2, true), (3, true)], some .decided⟩ := rfl
  have hrun := Reaches.of_run hmoves
  exact ⟨by decide, _, hrun, rfl, rfl, rfl, (closes_soundly (by decide) hrun).2.2.1⟩

end StakeQuorum.Round.Course
