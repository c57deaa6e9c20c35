import StakeQuorum.Consensus.Shared
import StakeQuorum.Proofs.Consensus.Closing

/-! # What a manager has admitted

A manager validates transactions one after another while the validators change. When nobody is
slow, its verdicts and its state are those of the three checks alone: no order of answers, no early
close and no worker that is still busy shows in them.
-/

namespace StakeQuorum.Consensus

/-- A transaction on its way to a manager, and what there is at that time. -/
structure Submission where
  tx : Transaction
  env : Manager.Surroundings
  /-- The clock when the transaction is checked. -/
  checked : Int64
  /-- The clock when it is read once more. -/
  stamped : Int64

namespace Submission

def clock (c : Submission) : Clock := ⟨fun i => .ok (if i = 0 then c.checked else c.stamped), 0⟩

def passes (s : SignatureScheme) (timeout : Int64) (c : Submission) : Bool :=
  c.tx.verifies s && Manager.isFresh timeout c.checked c.tx.timestamp

def isConfirmed (c : Submission) : Bool :=
  2 * c.env.validators.length / 3 < c.env.validators.countP (·.confirms c.tx)

def isDue (s : SignatureScheme) (timeout : Int64) (c : Submission) : Bool :=
  c.passes s timeout && c.isConfirmed

/-- All validators answer before the deadline. -/
structure Timely (timeout : Int64) (c : Submission) : Prop where
  prompt : ∀ v ∈ c.env.validators, v.Prompt c.tx
  left : 0 < (Deadline.after c.env.times.start timeout).remaining c.env.times.asking
  few : c.env.validators.length < 2 ^ 63

/-- A round over a submission that closes because it is decided, in whatever order the validators
answer. -/
structure Decides (c : Submission) (r : Round.Course) : Prop where
  reached : Moves.Reaches Round.Course.step (.start (UInt64.ofNat c.env.validators.length)) r
  answered : r.AnsweredBy (fun v confirms => confirms = v.confirms c.tx) c.env.validators
  closed : r.closing = some .decided

end Submission

/-- The state that a submission calls for. -/
def State.next (s : SignatureScheme) (timeout : Int64) (st : State) (c : Submission) : State :=
  if c.isDue s timeout then
    { lastBlock := State.chain st.lastBlock c.tx.hash
      validators := c.env.validators
      lastConsensus := c.stamped
      accepted := st.accepted + 1
      rejected := st.rejected }
  else { st with
    validators := if c.passes s timeout then c.env.validators else st.validators
    rejected := st.rejected + 1 }

def Manager.validateAll (s : SignatureScheme) : List Submission → Manager → List Bool × Manager
  | [], m => ([], m)
  | c :: cs, m =>
    let (accepted, m, _) := (m.validate s c.env c.clock c.tx).value
    let (verdicts, m) := validateAll s cs m
    (accepted :: verdicts, m)

variable {s : SignatureScheme} {timeout : Int64} {m : Manager} {c : Submission}
  {cs : List Submission}

/-! ### One submission -/

theorem Submission.isDue_iff : c.isDue s timeout = true ↔ c.tx.verifies s = true ∧
    Manager.isFresh timeout c.checked c.tx.timestamp = true ∧
    2 * c.env.validators.length / 3 < c.env.validators.countP (·.confirms c.tx) := by
  simp [isDue, passes, isConfirmed, and_assoc]

theorem Submission.Decides.reached_iff {r : Round.Course} (h : c.Decides r)
    (hlen : c.env.validators.length < 2 ^ 63) :
    Quorum.reached r.result (UInt64.ofNat c.env.validators.length) = c.isConfirmed := by
  have hsize := Quorum.toNat_ofNat_of_few hlen
  have hsound := Round.Course.Sound.of_reaches (by rwa [hsize]) h.reached
  rw [Bool.eq_iff_iff, hsound.reached_iff hlen h.answered h.closed, isConfirmed,
    decide_eq_true_iff]
  omega

namespace Manager

theorem checkTime_clock (m : Manager) (c : Submission) :
    m.checkTime c.clock c.tx.timestamp =
      (.ok (isFresh m.timeout c.checked c.tx.timestamp), c.clock.read.2) := rfl

theorem run_of_not_passes (h : c.passes s m.timeout = false) :
    ∃ clock, (m.run s c.env c.clock c.tx).value = (.ok false, m, clock) := by
  unfold run
  by_cases hv : c.tx.verifies s = true
  · have hstale : isFresh m.timeout c.checked c.tx.timestamp = false := by
      rwa [Submission.passes, hv, Bool.true_and] at h
    simp only [hv, checkTime_clock, hstale]
    exact ⟨_, rfl⟩
  · simp only [hv]
    exact ⟨_, rfl⟩

theorem run_of_passes (h : c.passes s m.timeout = true) :
    m.run s c.env c.clock c.tx = m.decide c.env c.clock.read.2 c.tx := by
  obtain ⟨hv, hfresh⟩ := (Bool.and_eq_true _ _).mp h
  simp only [run, hv, checkTime_clock, hfresh]
  rfl

theorem decide_of_timely (hp : m.pool.Ready) (hc : c.Timely m.timeout) :
    ∃ (pool : AskingPool) (clock : Clock), pool.Ready ∧
      (m.decide c.env c.clock.read.2 c.tx).value = (.ok c.isConfirmed, { m with
        pool
        state := if c.isConfirmed then
          ((m.state.observe c.env.validators).extend c.tx.hash).stamp c.stamped
        else m.state.observe c.env.validators }, clock) := by
  unfold Manager.decide
  by_cases hempty : c.env.validators = []
  · have hnone : c.isConfirmed = false := by simp [Submission.isConfirmed, hempty]
    simp only [hempty, hnone, List.isEmpty_nil, if_true]
    exact ⟨m.pool, _, hp, rfl⟩
  · have hpool := Round.ready_collect hp hc.prompt hc.left
    have hverdict := Round.Course.reached_collect_iff hp hc.prompt hc.left hc.few
    have hquorum : Quorum.reached
        (Round.collect m.pool m.timeout c.env.times c.tx c.env.validators).value.1
        (UInt64.ofNat c.env.validators.length) = c.isConfirmed := by
      rw [Bool.eq_iff_iff, hverdict, Submission.isConfirmed, decide_eq_true_iff]
      omega
    simp only [List.isEmpty_eq_false_iff.2 hempty, Bool.false_eq_true, if_false, Traced.value_bind,
      hquorum]
    cases c.isConfirmed with
    | false => exact ⟨_, _, hpool, rfl⟩
    | true => exact ⟨_, _, hpool, rfl⟩

/-- A timely submission gets the verdict that it is due and moves the state accordingly. -/
theorem validate_of_timely (hp : m.pool.Ready) (hc : c.Timely m.timeout) :
    ∃ (pool : AskingPool) (clock : Clock), pool.Ready ∧
      (m.validate s c.env c.clock c.tx).value =
        (c.isDue s m.timeout, { m with pool, state := m.state.next s m.timeout c }, clock) := by
  unfold validate
  rw [Traced.value_bind]
  cases hpass : c.passes s m.timeout with
  | false =>
    obtain ⟨clock, hrun⟩ := run_of_not_passes hpass
    refine ⟨m.pool, clock, hp, ?_⟩
    simp [hrun, State.next, State.count, Submission.isDue, hpass]
  | true =>
    obtain ⟨pool, clock, hready, hdecide⟩ := decide_of_timely hp hc
    refine ⟨pool, clock, hready, ?_⟩
    rw [run_of_passes hpass, hdecide]
    cases hconf : c.isConfirmed with
    | false => simp [State.next, State.count, State.observe, Submission.isDue, hpass, hconf]
    | true =>
      simp [State.next, State.count, State.observe, State.extend, State.stamp, Submission.isDue,
        hpass, hconf]

theorem validate_spec (hp : m.pool.Ready) (hc : c.Timely m.timeout) :
    let after := (m.validate s c.env c.clock c.tx).value
    (after.1 = true ↔ c.tx.verifies s = true ∧
      isFresh m.timeout c.checked c.tx.timestamp = true ∧
      2 * c.env.validators.length / 3 < c.env.validators.countP (·.confirms c.tx)) ∧
    (after.1 = false → after.2.1.state = { m.state with
      validators := if c.passes s m.timeout then c.env.validators else m.state.validators
      rejected := m.state.rejected + 1 }) := by
  obtain ⟨pool, clock, -, hvalue⟩ := validate_of_timely (s := s) hp hc
  rw [hvalue]
  refine ⟨Submission.isDue_iff, fun hdue => ?_⟩
  simp only at hdue
  simp only [State.next, hdue]
  rfl

/-- The validators may answer in any order: the round that the manager runs is one of those that
decide the submission, and all of them have its verdict. -/
theorem validate_decides (hp : m.pool.Ready) (hc : c.Timely m.timeout) :
    (∃ r, c.Decides r ∧
      r.result = (Round.collect m.pool m.timeout c.env.times c.tx c.env.validators).value.1) ∧
    ∀ r, c.Decides r → (m.validate s c.env c.clock c.tx).value.1 =
      (c.passes s m.timeout &&
        Quorum.reached r.result (UInt64.ofNat c.env.validators.length)) := by
  constructor
  · obtain ⟨r, hreach, hanswered, hclosed, hresult⟩ :=
      Round.Course.collect_decides hp hc.prompt hc.left hc.few
    exact ⟨r, ⟨hreach, hanswered, hclosed⟩, hresult⟩
  · intro r hr
    obtain ⟨pool, clock, -, hvalue⟩ := validate_of_timely (s := s) hp hc
    rw [hvalue, hr.reached_iff hc.few]
    rfl

theorem ready_new (timeout : Int64) (workers processors : Nat) :
    (new timeout workers processors).pool.Ready :=
  ⟨rfl, rfl, rfl, Nat.zero_lt_succ 9999⟩

/-! ### Many submissions -/

theorem validateAll_of_timely (hp : m.pool.Ready) (hcs : ∀ c ∈ cs, c.Timely m.timeout) :
    ∃ pool : AskingPool, pool.Ready ∧ m.validateAll s cs = (cs.map (·.isDue s m.timeout),
      { m with pool, state := cs.foldl (State.next s m.timeout) m.state }) := by
  induction cs generalizing m with
  | nil => exact ⟨m.pool, hp, rfl⟩
  | cons c cs ih =>
    obtain ⟨hc, hcs⟩ := List.forall_mem_cons.1 hcs
    obtain ⟨pool, clock, hready, hone⟩ := validate_of_timely (s := s) hp hc
    obtain ⟨pool', hready', hrest⟩ :=
      ih (m := { m with pool, state := m.state.next s m.timeout c }) hready hcs
    refine ⟨pool', hready', ?_⟩
    simp only [validateAll, hone, hrest, List.map_cons, List.foldl_cons]

end Manager

theorem foldl_next (s : SignatureScheme) (timeout : Int64) (cs : List Submission) :
    cs.foldl (State.next s timeout) {} =
      { lastBlock := Shared.chainOf ((cs.filter (·.isDue s timeout)).map (·.tx))
        validators := ((cs.filter (·.passes s timeout)).getLast?.map (·.env.validators)).getD []
        lastConsensus := ((cs.filter (·.isDue s timeout)).getLast?.map (·.stamped)).getD 0
        accepted := UInt64.ofNat (cs.countP (·.isDue s timeout))
        rejected := UInt64.ofNat (cs.countP (!·.isDue s timeout)) } := by
  induction cs using List.reverseRecOn with
  | nil => rfl
  | append_singleton cs c ih =>
    rw [List.foldl_append, ih, List.foldl_cons, List.foldl_nil, State.next]
    simp only [List.filter_append, List.countP_append]
    cases hpass : c.passes s timeout with
    | false => simp [Submission.isDue, hpass, UInt64.ofNat_add]
    | true =>
      cases hconf : c.isConfirmed with
      | false => simp [Submission.isDue, hpass, hconf, UInt64.ofNat_add]
      | true => simp [Submission.isDue, hpass, hconf, UInt64.ofNat_add, Shared.chainOf]

/-- A manager that nobody keeps waiting accepts what is due and nothing else. Its counters, its hash
chain, the time of its last acceptance and the validators it remembers are those of the submissions
so far, and what it rejects leaves no other trace than the count and the validators. In whatever
order the validators answer, a round that closes because it is decided has the same verdict. -/
theorem validateAll_state (s : SignatureScheme) (timeout : Int64) (workers processors : Nat)
    (cs : List Submission) (hcs : ∀ c ∈ cs, c.Timely timeout) :
    let out := (Manager.new timeout workers processors).validateAll s cs
    let m := out.2
    out.1 = cs.map (·.isDue s timeout) ∧
    m.state.accepted + m.state.rejected = UInt64.ofNat cs.length ∧
    m.state.accepted = UInt64.ofNat (cs.countP (·.isDue s timeout)) ∧
    m.state.lastBlock = ((cs.filter (·.isDue s timeout)).map (·.tx)).foldl
      (fun last tx => sha256 (last.bytes ++ tx.hash.bytes)) FixedBytes.zero ∧
    m.state.lastConsensus =
      ((cs.filter (·.isDue s timeout)).getLast?.map (·.stamped)).getD 0 ∧
    m.state.validators =
      ((cs.filter (·.passes s timeout)).getLast?.map (·.env.validators)).getD [] ∧
    ∀ c : Submission, c.Timely timeout →
      let after := (m.validate s c.env c.clock c.tx).value
      (after.1 = true ↔ c.tx.verifies s = true ∧
        Manager.isFresh timeout c.checked c.tx.timestamp = true ∧
        2 * c.env.validators.length / 3 < c.env.validators.countP (·.confirms c.tx)) ∧
      (after.1 = false → after.2.1.state = { m.state with
        validators := if c.passes s timeout then c.env.validators else m.state.validators
        rejected := m.state.rejected + 1 }) ∧
      (∃ r, c.Decides r ∧
        r.result = (Round.collect m.pool timeout c.env.times c.tx c.env.validators).value.1) ∧
      ∀ r, c.Decides r → after.1 = (c.passes s timeout &&
        Quorum.reached r.result (UInt64.ofNat c.env.validators.length)) := by
  intro out m
  obtain ⟨pool, hready, hall⟩ :=
    Manager.validateAll_of_timely (s := s) (Manager.ready_new timeout workers processors) hcs
  have hout : out.1 = cs.map (·.isDue s timeout) := congrArg Prod.fst hall
  have hm : m = ⟨timeout, pool, cs.foldl (State.next s timeout) {}⟩ := congrArg Prod.snd hall
  have hstate : m.state = cs.foldl (State.next s timeout) {} := congrArg Manager.state hm
  rw [foldl_next] at hstate
  refine ⟨hout, ?_, ?_, ?_, ?_, ?_, ?_⟩
  · rw [hstate, ← UInt64.ofNat_add, List.length_eq_countP_add_countP (·.isDue s timeout)]
    simp
  · rw [hstate]
  · rw [hstate]
    rfl
  · rw [hstate]
  · rw [hstate]
  · intro c hc
    have htimeout : m.timeout = timeout := congrArg Manager.timeout hm
    have hpool : m.pool.Ready := by rwa [hm]
    rw [← htimeout] at hc ⊢
    obtain ⟨hverdict, hrejected⟩ := Manager.validate_spec (s := s) hpool hc
    exact ⟨hverdict, hrejected, Manager.validate_decides hpool hc⟩

def trusting : SignatureScheme where
  publicKey seed := seed
  sign _ _ := FixedBytes.zero
  verify _ _ _ := true

def zeroSigned : Transaction where
  payload := []
  signer := List.replicate 32 '1'.toUInt8

def submissionAt (now : Int64) (answers : List Bool) : Submission where
  tx := zeroSigned
  env := ⟨answers.map fun confirms => {
    identity := []
    internal := ⟨List.replicate Address.digitCount '0'.toUInt8, List.length_replicate, by decide⟩
    stake := 0
    client := some ⟨fun _ => if confirms then .confirmed else .refused⟩ }, ⟨0, 0⟩⟩
  checked := now
  stamped := now + 1

theorem timely_submissionAt (now : Int64) (answers : List Bool) (h : answers.length < 2 ^ 63) :
    (submissionAt now answers).Timely 1000 where
  prompt := by
    intro v hv client hclient
    obtain ⟨confirms, -, rfl⟩ := List.mem_map.1 hv
    obtain rfl := Option.some.inj hclient
    cases confirms <;> simp
  left := by
    change 0 < (Deadline.after 0 1000).remaining 0
    decide
  few := by simpa [submissionAt] using h

theorem decides_submissionAt (now : Int64) :
    ∃ r, (submissionAt now [false, true, true, true]).Decides r ∧ r.result = 3 := by
  let moves : List Round.Course.Move := [.answer 3 true, .answer 2 true, .answer 1 true, .close]
  have hmoves : Moves.run Round.Course.step (.start 4) moves =
      some ⟨⟨4, 3, 0⟩, [(1, true), (2, true), (3, true)], some .decided⟩ := rfl
  refine ⟨_, ⟨Moves.Reaches.of_run hmoves, ?_, rfl⟩, rfl⟩
  simp [Round.Course.AnsweredBy, submissionAt, Validator.confirms]

/-- Three of four validators confirm, then two of three, and then it is too late. Whether those who
confirm answer first or last makes no difference to the next submission. -/
theorem validateAll_state_threeSubmissions :
    let cs := [submissionAt 5 [true, true, true, false], submissionAt 7 [true, true, false],
      submissionAt 1000 [true]]
    let out := (Manager.new 1000 1).validateAll trusting cs
    let next := submissionAt 9 [false, true, true, true]
    (∀ c ∈ cs, c.Timely 1000) ∧ out.1 = [true, false, false] ∧ out.2.state.accepted = 1 ∧
      out.2.state.lastBlock = sha256 ((FixedBytes.zero : Digest).bytes ++ zeroSigned.hash.bytes) ∧
      out.2.state.lastConsensus = 6 ∧ out.2.state.validators.length = 3 ∧
      next.Timely 1000 ∧
      (out.2.validate trusting next.env next.clock next.tx).value.1 = true := by
  intro cs out next
  have hcs : ∀ c ∈ cs, c.Timely 1000 := by
    simp only [cs, List.forall_mem_cons]
    exact ⟨timely_submissionAt _ _ (by decide), timely_submissionAt _ _ (by decide),
      timely_submissionAt _ _ (by decide), by simp⟩
  have hdue : cs.filter (·.isDue trusting 1000) = [submissionAt 5 [true, true, true, false]] := by
    rfl
  have hnext : next.Timely 1000 := timely_submissionAt _ _ (by decide)
  obtain ⟨hverdicts, -, haccepted, hblock, hlast, hvalidators, hafter⟩ :=
    validateAll_state trusting 1000 1 0 cs hcs
  obtain ⟨r, hr, hresult⟩ := decides_submissionAt 9
  obtain ⟨-, -, -, hverdict⟩ := hafter next hnext
  rw [hdue] at hblock
  refine ⟨hcs, hverdicts.trans (by decide), haccepted.trans (by decide), hblock,
    hlast.trans (by decide), (congrArg List.length hvalidators).trans (by decide), hnext, ?_⟩
  rw [hverdict r hr, hresult]
  decide

end StakeQuorum.Consensus
