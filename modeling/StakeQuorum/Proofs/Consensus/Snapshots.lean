import StakeQuorum.Proofs.Consensus.Admission
import StakeQuorum.Proofs.Consensus.Calls
import StakeQuorum.Proofs.Interleaving

/-! # Snapshots of a manager

A call that finds a quorum extends the hash chain first and is counted afterwards. The chain of a
snapshot is that of the accepted transactions, and as long as their number, when no call is in
between the two and the clock has never failed there. Otherwise the chain is too long, and whoever
finds as many transactions as were counted that lead to the same hash has broken the hash function.
-/

namespace StakeQuorum.Consensus

/-- The call has extended the chain and noted the time. -/
def Stage.isStamped : Stage → Bool
  | .chained true | .over true => true
  | _ => false

def Stage.isAccepted : Stage → Bool
  | .over true => true
  | _ => false

theorem Stage.isStamped_eq {stage : Stage} (h : stage ≠ .chained true) :
    stage.isStamped = stage.isAccepted := by
  rcases stage with _ | _ | (_ | _) | (_ | _)
  case chained.true => exact absurd rfl h
  all_goals rfl

namespace Shared

variable {s s' : Shared} {call : Call} {tx : Transaction} {i : Nat}
  {validators : List (Validator Client)} {now : Option Int64} {stage : Stage} {state : State}

/-! ### Chains -/

theorem chainOf_append_singleton (txs : List Transaction) (tx : Transaction) :
    chainOf (txs ++ [tx]) = State.chain (chainOf txs) tx.hash :=
  List.foldl_concat ..

/-- What is hashed for each transaction of a chain that goes on from `last`. -/
def blocksFrom (last : Digest) : List Transaction → List Bytes
  | [] => []
  | tx :: txs => (last.bytes ++ tx.hash.bytes) :: blocksFrom (State.chain last tx.hash) txs

theorem blocksFrom_append_singleton (last : Digest) (txs : List Transaction) (tx : Transaction) :
    blocksFrom last (txs ++ [tx]) = blocksFrom last txs ++
      [(txs.foldl (fun last tx => State.chain last tx.hash) last).bytes ++ tx.hash.bytes] := by
  induction txs generalizing last with
  | nil => rfl
  | cons tx' txs ih => exact congrArg _ (ih _)

def blocks (txs : List Transaction) : List Bytes := blocksFrom FixedBytes.zero txs

theorem blocks_append_singleton (txs : List Transaction) (tx : Transaction) :
    blocks (txs ++ [tx]) = blocks txs ++ [(chainOf txs).bytes ++ tx.hash.bytes] :=
  blocksFrom_append_singleton ..

theorem mem_blocks_append_singleton (txs : List Transaction) (tx : Transaction) :
    (chainOf txs).bytes ++ tx.hash.bytes ∈ blocks (txs ++ [tx]) := by
  rw [blocks_append_singleton]
  exact List.mem_append_right _ (List.mem_singleton_self _)

/-- The hash function is broken by the blocks of two chains: two different ones have the same hash,
or one of the second chain has the hash that chains begin with. -/
def Clash (txs txs' : List Transaction) : Prop :=
  (∃ b ∈ blocks txs, ∃ b' ∈ blocks txs', b ≠ b' ∧ sha256 b = sha256 b') ∨
    ∃ b ∈ blocks txs', sha256 b = FixedBytes.zero

theorem Clash.mono {txs txs' : List Transaction} (h : Clash txs txs') (tx tx' : Transaction) :
    Clash (txs ++ [tx]) (txs' ++ [tx']) := by
  unfold Clash
  simp only [blocks_append_singleton]
  rcases h with ⟨b, hb, b', hb', hne, heq⟩ | ⟨b, hb, hzero⟩
  · exact .inl ⟨b, List.mem_append_left _ hb, b', List.mem_append_left _ hb', hne, heq⟩
  · exact .inr ⟨b, List.mem_append_left _ hb, hzero⟩

/-- Chains of different lengths with the same hash clash. -/
theorem clash_of_shorter {txs txs' : List Transaction} (hlen : txs.length < txs'.length)
    (h : chainOf txs = chainOf txs') : Clash txs txs' := by
  induction txs using List.reverseRecOn generalizing txs' with
  | nil =>
    obtain rfl | ⟨init, tx, rfl⟩ := List.eq_nil_or_concat' txs'
    · simp at hlen
    rw [chainOf_append_singleton] at h
    exact .inr ⟨_, mem_blocks_append_singleton init tx, h.symm⟩
  | append_singleton txs tx ih =>
    obtain rfl | ⟨init, tx', rfl⟩ := List.eq_nil_or_concat' txs'
    · simp at hlen
    rw [chainOf_append_singleton, chainOf_append_singleton] at h
    by_cases hsame : (chainOf txs).bytes ++ tx.hash.bytes = (chainOf init).bytes ++ tx'.hash.bytes
    · obtain ⟨hlast, -⟩ := List.append_inj hsame (by simp)
      refine (ih ?_ (FixedBytes.ext hlast)).mono tx tx'
      simpa using hlen
    · exact .inl ⟨_, mem_blocks_append_singleton txs tx, _, mem_blocks_append_singleton init tx',
        hsame, h⟩

/-! ### Moves -/

theorem step_observe (h : s.step (.observe i validators) = some s') : ∃ call,
    s.calls[i]? = some call ∧ call.stage = .checking ∧
      s' = s.advance i call .asking (s.state.observe validators) := by
  simp only [step, Option.bind_eq_bind, Option.bind_eq_some_iff] at h
  obtain ⟨call, hcall, h⟩ := h
  split at h
  · exact ⟨call, hcall, ‹_›, (Option.some.inj h).symm⟩
  · cases h

theorem step_extend (h : s.step (.extend i now) = some s') : ∃ call state,
    s.calls[i]? = some call ∧ call.stage = .asking ∧
      state.lastBlock = State.chain s.state.lastBlock call.tx.hash ∧
      state.accepted = s.state.accepted ∧
      s' = { s.advance i call (.chained now.isSome) state with chain := s.chain ++ [call.tx] } := by
  simp only [step, Option.bind_eq_bind, Option.bind_eq_some_iff] at h
  obtain ⟨call, hcall, h⟩ := h
  split at h
  · cases now with
    | none =>
      exact ⟨call, s.state.extend call.tx.hash, hcall, ‹_›, rfl, rfl, (Option.some.inj h).symm⟩
    | some now =>
      exact ⟨call, (s.state.extend call.tx.hash).stamp now, hcall, ‹_›, rfl, rfl,
        (Option.some.inj h).symm⟩
  · cases h

theorem step_count (h : s.step (.count i) = some s') : ∃ call accepts,
    s.calls[i]? = some call ∧ (call.stage = .chained true ∧ accepts = true ∨
      call.stage ∈ [.checking, .asking, .chained false] ∧ accepts = false) ∧
      s' = s.advance i call (.over accepts) (s.state.count accepts) := by
  simp only [step, Option.bind_eq_bind, Option.bind_eq_some_iff] at h
  obtain ⟨call, hcall, h⟩ := h
  refine ⟨call, ?_⟩
  split at h
  case h_4 hstage => exact ⟨true, hcall, .inl ⟨hstage, rfl⟩, (Option.some.inj h).symm⟩
  case h_5 hstage => cases h
  all_goals
    rename_i hstage
    exact ⟨false, hcall, .inr ⟨by simp [hstage], rfl⟩, (Option.some.inj h).symm⟩

/-! ### The calls so far -/

def transactions (p : Stage → Bool) (calls : List Call) : List Transaction :=
  (calls.filter (p ·.stage)).map (·.tx)

theorem transactions_perm {p : Stage → Bool} {calls calls' : List Call} (h : calls.Perm calls') :
    (transactions p calls).Perm (transactions p calls') :=
  (h.filter _).map _

theorem transactions_same {calls : List Call} (h : calls[i]? = some call) (p : Stage → Bool)
    (stage : Stage) (hp : p call.stage = p stage) :
    (transactions p calls).Perm (transactions p (calls.set i { call with stage })) := by
  obtain ⟨others, hall, hset⟩ := exists_others h
  refine (transactions_perm hall).trans (.trans (.of_eq ?_) (transactions_perm (hset _)).symm)
  simp only [transactions, List.filter_cons, hp]
  split <;> rfl

theorem transactions_more {calls : List Call} (h : calls[i]? = some call) (p : Stage → Bool)
    (stage : Stage) (hbefore : p call.stage = false) (hafter : p stage = true) :
    (call.tx :: transactions p calls).Perm
      (transactions p (calls.set i { call with stage })) := by
  obtain ⟨others, hall, hset⟩ := exists_others h
  have hbase : (transactions p calls).Perm (transactions p others) := by
    refine (transactions_perm hall).trans (.of_eq ?_)
    simp [transactions, hbefore]
  refine (hbase.cons _).trans (.trans (.of_eq ?_) (transactions_perm (hset _)).symm)
  simp [transactions, hafter]

def accepted (s : Shared) : List Transaction := transactions Stage.isAccepted s.calls

/-- The clock fails when the chain has just been extended. -/
def Move.isFailure : Move → Bool
  | .extend _ none => true
  | _ => false

theorem no_failure_iff {ms : List Move} :
    ms.countP Move.isFailure = 0 ↔ ∀ i, Move.extend i none ∉ ms := by
  rw [List.countP_eq_zero]
  constructor
  · intro h i hm
    exact h _ hm rfl
  · intro h m hm hf
    unfold Move.isFailure at hf
    split at hf
    · exact h _ hm
    · cases hf

/-- The chain consists of the transactions of the calls that have noted the time, and of those for
which the clock has failed. -/
structure Chained (failures : Nat) (s : Shared) : Prop where
  last : s.state.lastBlock = chainOf s.chain
  counted : s.state.accepted = UInt64.ofNat s.accepted.length
  origin : ∃ failed, failed.length = failures ∧
    s.chain.Perm (transactions Stage.isStamped s.calls ++ failed)

theorem Chained.step {failures : Nat} {m : Move} (h : Chained failures s)
    (hs : s.step m = some s') : Chained (failures + [m].countP Move.isFailure) s' := by
  obtain ⟨hlast, hcounted, failed, hfailed, horigin⟩ := h
  cases m with
  | enter tx =>
    cases hs
    refine ⟨hlast, ?_, failed, hfailed, ?_⟩
    · simpa [accepted, transactions, Stage.isAccepted] using hcounted
    · simpa [transactions, Stage.isStamped] using horigin
  | observe i validators =>
    obtain ⟨call, hcall, hstage, rfl⟩ := step_observe hs
    have hsame (p : Stage → Bool) (hp : p .checking = p .asking) :=
      transactions_same hcall p .asking (hstage ▸ hp)
    exact ⟨hlast, hcounted.trans (congrArg _ (hsame _ rfl).length_eq), failed, hfailed,
      horigin.trans ((hsame _ rfl).append_right _)⟩
  | extend i now =>
    obtain ⟨call, state, hcall, hstage, hchain, hsame, rfl⟩ := step_extend hs
    have hnext : state.lastBlock = chainOf (s.chain ++ [call.tx]) := by
      rw [hchain, hlast, chainOf_append_singleton]
    have hcount := (transactions_same hcall Stage.isAccepted (.chained now.isSome)
      (by rw [hstage]; rfl)).length_eq
    refine ⟨hnext, (hsame.trans hcounted).trans (congrArg _ hcount), ?_⟩
    cases now with
    | none =>
      have hstill := transactions_same hcall Stage.isStamped (.chained false)
        (by rw [hstage]; rfl)
      refine ⟨failed ++ [call.tx], by simp [hfailed, Move.isFailure], ?_⟩
      rw [← List.append_assoc]
      exact (horigin.trans (hstill.append_right _)).append_right _
    | some now =>
      have hmore := transactions_more hcall Stage.isStamped (.chained true)
        (by rw [hstage]; rfl) rfl
      exact ⟨failed, hfailed, (List.perm_append_singleton _ _).trans
        ((horigin.cons _).trans (hmore.append_right _))⟩
  | count i =>
    obtain ⟨call, accepts, hcall, ⟨hstage, rfl⟩ | ⟨hstage, rfl⟩, rfl⟩ := step_count hs
    · have hmore := transactions_more hcall Stage.isAccepted (.over true)
        (by rw [hstage]; rfl) rfl
      have hstill := transactions_same hcall Stage.isStamped (.over true)
        (by rw [hstage]; rfl)
      have hcount : s.state.accepted + 1 =
          UInt64.ofNat (call.tx :: transactions Stage.isAccepted s.calls).length := by
        rw [hcounted, List.length_cons, UInt64.ofNat_add]
        rfl
      exact ⟨hlast, hcount.trans (congrArg _ hmore.length_eq), failed, hfailed,
        horigin.trans (hstill.append_right _)⟩
    · have hsame (p : Stage → Bool) (hp : ∀ stage ∈ [.checking, .asking, .chained false],
          p stage = p (.over false)) :=
        transactions_same hcall p (.over false) (hp _ hstage)
      have hcount := (hsame Stage.isAccepted (by decide)).length_eq
      exact ⟨hlast, hcounted.trans (congrArg _ hcount), failed, hfailed,
        horigin.trans ((hsame Stage.isStamped (by decide)).append_right _)⟩

theorem chained_of_run {ms : List Move} (h : Moves.run step {} ms = some s) :
    Chained (ms.countP Move.isFailure) s := by
  refine Moves.run_keeps (P := fun ms s => Chained (ms.countP Move.isFailure) s)
    ⟨rfl, rfl, [], rfl, .nil⟩ ?_ h
  intro ms t m u ht hm
  rw [List.countP_append]
  exact ht.step hm

theorem length_stamped (calls : List Call) : (transactions Stage.isStamped calls).length =
    (transactions Stage.isAccepted calls).length + calls.countP (·.stage = .chained true) := by
  have hone : ∀ stage : Stage, (if stage.isStamped then 1 else 0) =
      (if stage.isAccepted then 1 else 0) + if stage = .chained true then 1 else 0 := by
    rintro (_ | _ | (_ | _) | (_ | _)) <;> rfl
  simp only [transactions, List.length_map, ← List.countP_eq_length_filter]
  induction calls with
  | nil => rfl
  | cons call calls ih =>
    simp only [List.countP_cons, ih, hone call.stage, decide_eq_true_eq]
    omega

/-! ### Snapshots -/

/-- As many transactions as were counted lead to the last hash. -/
def Explains (state : State) (txs : List Transaction) : Prop :=
  txs.length = state.accepted.toNat ∧ state.lastBlock = chainOf txs

/-- A snapshot shows the hash chain of the transactions that it counts as accepted. -/
def Consistent (s : Shared) : Prop :=
  ∃ txs, txs.Perm s.accepted ∧ Explains s.state txs

/-- No call is in between the chain and the counter, and the clock has never failed there. -/
structure Settled (ms : List Move) (s : Shared) : Prop where
  counted : ∀ call ∈ s.calls, call.stage ≠ .chained true
  stamped : ∀ i, .extend i none ∉ ms
  few : s.accepted.length < 2 ^ 64

theorem Chained.length_eq {failures : Nat} (h : Chained failures s) : s.chain.length =
    s.accepted.length + s.calls.countP (·.stage = .chained true) + failures := by
  obtain ⟨failed, hfailed, horigin⟩ := h.origin
  rw [horigin.length_eq, List.length_append, length_stamped, hfailed, accepted]

theorem Chained.counted_toNat {failures : Nat} (h : Chained failures s) :
    s.state.accepted.toNat = s.accepted.length % 2 ^ 64 := by
  rw [h.counted]
  exact UInt64.toNat_ofNat

/-- Only a chain that is too long keeps a snapshot from being settled. -/
theorem Chained.settled_iff {ms : List Move} (h : Chained (ms.countP Move.isFailure) s) :
    Settled ms s ↔ s.chain.length = s.state.accepted.toNat := by
  rw [h.length_eq, h.counted_toNat]
  constructor
  · rintro ⟨hcounted, hstamped, hfew⟩
    have hnone : s.calls.countP (·.stage = .chained true) = 0 := by
      simpa [List.countP_eq_zero] using hcounted
    rw [hnone, no_failure_iff.2 hstamped, Nat.mod_eq_of_lt hfew, Nat.add_zero]
  · intro hlen
    have hless := Nat.mod_le s.accepted.length (2 ^ 64)
    have hnone : s.calls.countP (·.stage = .chained true) = 0 := by omega
    have hnever : ms.countP Move.isFailure = 0 := by omega
    refine ⟨?_, no_failure_iff.1 hnever, ?_⟩
    · simpa [List.countP_eq_zero] using hnone
    · have := Nat.mod_lt s.accepted.length (Nat.two_pow_pos 64)
      omega

/-- A snapshot between any steps of the calls is consistent if no call is in between the chain and
the counter and the clock has never failed there, and otherwise only for whoever breaks the hash
function. A validation of the manager that nobody interrupts makes such steps. -/
theorem consistent_or_clash {ms : List Move} (h : Moves.run step {} ms = some s) :
    (Settled ms s → s.Consistent) ∧
      (∀ txs, Explains s.state txs → Settled ms s ∨ Clash txs s.chain) ∧
      ∀ (scheme : SignatureScheme) (m : Manager) (env : Manager.Surroundings) (clock : Clock)
        (tx : Transaction), m.state = s.state →
        let out := (m.validate scheme env clock tx).value
        ∃ more s', Moves.run step {} (ms ++ more) = some s' ∧ s'.state = out.2.1.state ∧
          s'.calls = s.calls ++ [⟨tx, .over out.1⟩] := by
  have hc := chained_of_run h
  refine ⟨?_, ?_, ?_⟩
  · intro hsettled
    have hlen := hc.settled_iff.1 hsettled
    obtain ⟨failed, hfailed, horigin⟩ := hc.origin
    have hnone : failed = [] :=
      List.length_eq_zero_iff.1 (hfailed.trans (no_failure_iff.2 hsettled.stamped))
    have hsame : transactions Stage.isStamped s.calls = s.accepted :=
      congrArg (List.map _) (List.filter_congr fun call hcall =>
        Stage.isStamped_eq (hsettled.counted call hcall))
    rw [hsame, hnone, List.append_nil] at horigin
    exact ⟨s.chain, horigin, hlen, hc.last⟩
  · intro txs ⟨htxs, hchain⟩
    have hless : s.state.accepted.toNat ≤ s.chain.length := by
      rw [hc.length_eq, hc.counted_toNat]
      exact (Nat.mod_le ..).trans (by omega)
    rcases Nat.eq_or_lt_of_le hless with heq | hlt
    · exact .inl (hc.settled_iff.2 heq.symm)
    · exact .inr (clash_of_shorter (htxs ▸ hlt) (hchain.symm.trans hc.last))
  · intro scheme m env clock tx hm out
    obtain ⟨s', hreach, hstate, hcalls⟩ := m.validate_reaches scheme env clock tx hm.symm
    obtain ⟨more, hmore⟩ := hreach.exists_run
    refine ⟨more, s', ?_, hstate, hcalls⟩
    rw [Moves.run_append, h]
    exact hmore

def zeroSignedAt (timestamp : Int64) : Transaction := { zeroSigned with timestamp }

def confirming : List (Validator Client) := (submissionAt 0 [true]).env.validators

/-- Two calls overlap and extend the chain in the other order; a third one is rejected. A fourth
one that nobody interrupts goes on from there. -/
theorem consistent_threeCalls :
    let moves : List Move := [.enter (zeroSignedAt 1), .enter (zeroSignedAt 2),
      .enter (zeroSignedAt 3), .observe 0 confirming, .observe 1 confirming, .extend 1 (some 5),
      .count 2, .extend 0 (some 6), .count 0, .count 1]
    let next := submissionAt 9 [true]
    ∃ s, Moves.run step {} moves = some s ∧ s.state.accepted = 2 ∧
      s.chain = [zeroSignedAt 2, zeroSignedAt 1] ∧ s.Consistent ∧
      ∃ more s', Moves.run step {} (moves ++ more) = some s' ∧ s'.state =
        ({ Manager.new 1000 1 with state := s.state }.validate trusting next.env next.clock
          next.tx).value.2.1.state := by
  intro moves next
  have hrun : Moves.run step {} moves = some {
        state := {
          lastBlock := chainOf [zeroSignedAt 2, zeroSignedAt 1]
          validators := confirming, lastConsensus := 6, accepted := 2, rejected := 1 }
        calls := [⟨zeroSignedAt 1, .over true⟩, ⟨zeroSignedAt 2, .over true⟩,
          ⟨zeroSignedAt 3, .over false⟩]
        chain := [zeroSignedAt 2, zeroSignedAt 1] } := rfl
  obtain ⟨hconsistent, -, hcall⟩ := consistent_or_clash hrun
  obtain ⟨more, s', hmore, hstate, -⟩ :=
    hcall trusting { Manager.new 1000 1 with state := _ } next.env next.clock next.tx rfl
  exact ⟨_, hrun, rfl, rfl, hconsistent ⟨by simp, by simp [moves], by decide⟩, more, s', hmore,
    hstate⟩

/-- A snapshot between the chain and the counter, and one after the clock has failed there: nothing
was accepted, and yet the chain has begun. -/
theorem not_explained_oneCall : ∃ s s', Moves.run step {} [.enter zeroSigned,
      .observe 0 confirming, .extend 0 (some 5)] = some s ∧
    Moves.run step {} [.enter zeroSigned, .observe 0 confirming, .extend 0 none, .count 0] =
      some s' ∧
    ∀ txs, ¬ Explains s.state txs ∧ ¬ Explains s'.state txs := by
  have hchain : chainOf [zeroSigned] ≠ FixedBytes.zero := by decide +kernel
  have hnever (state : State) (hnone : state.accepted = 0)
      (hlast : state.lastBlock = chainOf [zeroSigned]) (txs : List Transaction) :
      ¬ Explains state txs := by
    rintro ⟨hlen, htxs⟩
    rw [hnone] at hlen
    obtain rfl := List.length_eq_zero_iff.1 hlen
    exact hchain (hlast.symm.trans htxs)
  exact ⟨_, _, rfl, rfl, fun txs => ⟨hnever _ rfl rfl txs, hnever _ rfl rfl txs⟩⟩

end Shared

end StakeQuorum.Consensus
