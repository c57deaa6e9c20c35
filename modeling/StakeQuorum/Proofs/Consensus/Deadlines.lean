import StakeQuorum.Consensus.Round
import StakeQuorum.Node.Startup
import StakeQuorum.Proofs.Node.Layers
import StakeQuorum.Proofs.Words

/-! # Deadlines of configured timeouts

The deadline of a round is the steady clock plus the configured timeout in nanoseconds, as a signed
word. It is the point that the timeout asks for exactly if this point fits the word. Settings accept
longer timeouts, and once a deadline has passed no confirmation counts.
-/

namespace StakeQuorum

namespace Deadline

variable {now : Int64} {timeout : UInt64} {d : Deadline}

/-- The point that a timeout in milliseconds asks for, over the unbounded nanoseconds. -/
def due (now : Int64) (timeout : UInt64) : ℤ := now.toInt + timeout.toNat * 1000000

/-- Up to this timeout, a longer one has no earlier deadline. -/
def Ordered (now : Int64) (longest : UInt64) : Prop :=
  ∀ t t' : UInt64, t ≤ t' → t' ≤ longest → (after now t.toInt64).time ≤ (after now t'.toInt64).time

theorem toInt_nonneg (h : 0 ≤ now) : 0 ≤ now.toInt := Int64.le_iff_toInt_le.1 h

theorem due_mono {t t' : UInt64} (h : t ≤ t') : due now t ≤ due now t' := by
  rw [UInt64.le_iff_toNat_le] at h
  unfold due
  omega

theorem toInt_time_after (now : Int64) (timeout : UInt64) :
    (after now timeout.toInt64).time.toInt = (due now timeout).bmod (2 ^ 64) := by
  have hmilli : nanosPerMilli.toInt = 1000000 := rfl
  rw [after, Int64.toInt_add, Int64.toInt_mul, toInt_toInt64, hmilli, due, Int.bmod_mul_bmod,
    Int.add_bmod_bmod]

theorem time_after_of_lt (hnow : 0 ≤ now) (h : due now timeout < 2 ^ 63) :
    (after now timeout.toInt64).time.toInt = due now timeout := by
  have hpos := toInt_nonneg hnow
  rw [toInt_time_after]
  unfold due at h ⊢
  exact Int.bmod_eq_of_le (by omega) (by omega)

theorem time_after_eq_due_iff (hnow : 0 ≤ now) :
    (after now timeout.toInt64).time.toInt = due now timeout ↔ due now timeout < 2 ^ 63 := by
  constructor
  · intro h
    rw [← h]
    exact Int64.toInt_lt _
  · exact time_after_of_lt hnow

/-! ### What is left -/

theorem remaining_of_le (h : d.time ≤ now) : d.remaining now = 0 := by
  rw [remaining, isExpired, if_pos (decide_eq_true h)]

theorem toInt_remaining_of_lt (hnow : 0 ≤ now) (h : now < d.time) :
    (d.remaining now).toInt = (d.time.toInt - now.toInt) / 1000000 := by
  have hpos := toInt_nonneg hnow
  have hbound := d.time.toInt_lt
  have hmilli : nanosPerMilli.toInt = 1000000 := rfl
  have hopen : d.isExpired now = false := decide_eq_false (Int64.not_le.2 h)
  rw [Int64.lt_iff_toInt_lt] at h
  have hsub : (d.time - now).toInt = d.time.toInt - now.toInt := by
    rw [Int64.toInt_sub]
    exact Int.bmod_eq_of_le (by omega) (by omega)
  rw [remaining, hopen, if_neg Bool.false_ne_true, Int64.toInt_div, hsub, hmilli,
    Int.tdiv_eq_ediv_of_nonneg (by omega)]
  exact Int.bmod_eq_of_le (by omega) (by omega)

/-- A deadline that has not passed leaves the whole timeout only if nothing has wrapped. -/
theorem remaining_after_eq_iff (hnow : 0 ≤ now) (htimeout : 1 ≤ timeout) :
    ((after now timeout.toInt64).remaining now).toInt = timeout.toNat ↔
      due now timeout < 2 ^ 63 := by
  have hpos := toInt_nonneg hnow
  rw [UInt64.le_iff_toNat_le, UInt64.toNat_one] at htimeout
  constructor
  · intro h
    have hopen : now < (after now timeout.toInt64).time := by
      by_contra hpassed
      rw [remaining_of_le (Int64.not_lt.1 hpassed), Int64.toInt_zero] at h
      omega
    rw [toInt_remaining_of_lt hnow hopen] at h
    have hbound := (after now timeout.toInt64).time.toInt_lt
    have hmod : (after now timeout.toInt64).time.toInt % (2 ^ 64 : ℕ) =
        due now timeout % (2 ^ 64 : ℕ) := by
      rw [toInt_time_after, Int.bmod_emod]
    unfold due at hmod ⊢
    omega
  · intro h
    have htime := time_after_of_lt hnow h
    have hopen : now < (after now timeout.toInt64).time := by
      rw [Int64.lt_iff_toInt_lt, htime, due]
      omega
    rw [toInt_remaining_of_lt hnow hopen, htime, due]
    omega

/-! ### Longer timeouts -/

/-- Just above the end of the clock a deadline wraps to its beginning. -/
theorem time_after_of_wrap (h : 2 ^ 63 ≤ due now timeout)
    (hwrap : due now timeout < 2 ^ 63 + 1000000) :
    (after now timeout.toInt64).time.toInt < 0 := by
  rw [toInt_time_after, Int.bmod_def]
  split <;> omega

theorem exists_longest (hnow : 0 ≤ now) (h : 2 ^ 63 ≤ due now timeout) : ∃ t t' : UInt64,
    t'.toNat = t.toNat + 1 ∧ t' ≤ timeout ∧ due now t < 2 ^ 63 ∧ 2 ^ 63 ≤ due now t' := by
  have hpos := toInt_nonneg hnow
  have hbound := now.toInt_lt
  have hlt := timeout.toNat_lt
  unfold due at h ⊢
  obtain ⟨n, hn⟩ : ∃ n : ℕ, (n : ℤ) = (2 ^ 63 - 1 - now.toInt) / 1000000 :=
    ⟨_, Int.toNat_of_nonneg (by omega)⟩
  have hlast : (UInt64.ofNat n).toNat = n :=
    UInt64.toNat_ofNat_of_lt (by rw [UInt64.size]; omega)
  have hnext : (UInt64.ofNat (n + 1)).toNat = n + 1 :=
    UInt64.toNat_ofNat_of_lt (by rw [UInt64.size]; omega)
  refine ⟨UInt64.ofNat n, UInt64.ofNat (n + 1), ?_⟩
  rw [UInt64.le_iff_toNat_le, hlast, hnext]
  omega

theorem ordered_iff (hnow : 0 ≤ now) : Ordered now timeout ↔ due now timeout < 2 ^ 63 := by
  constructor
  · intro h
    by_contra hover
    obtain ⟨t, t', hnext, hle, hfits, hwraps⟩ := exists_longest hnow (Int.not_lt.1 hover)
    have horder := h t t' (by rw [UInt64.le_iff_toNat_le]; omega) hle
    rw [Int64.le_iff_toInt_le, time_after_of_lt hnow hfits] at horder
    have hpos := toInt_nonneg hnow
    have hstep : due now t' = due now t + 1000000 := by
      unfold due
      omega
    have hnegative := time_after_of_wrap hwraps (by omega)
    unfold due at horder
    omega
  · intro h t t' ht ht'
    have hlonger : due now t ≤ due now t' := due_mono ht
    have hlongest : due now t' ≤ due now timeout := due_mono ht'
    rw [Int64.le_iff_toInt_le, time_after_of_lt hnow (by omega), time_after_of_lt hnow (by omega)]
    exact hlonger

end Deadline

/-! ### Rounds whose deadline has passed -/

namespace Round

variable {remaining : Int64}

theorem ask_of_expired (h : remaining ≤ 0) (tx : Transaction) (v : Validator Client) :
    (ask tx remaining v).value = some false := by
  unfold ask
  cases v.client with
  | none => rfl
  | some client => simp [h]

theorem query_of_expired (h : remaining ≤ 0) (tx : Transaction) (p : Progress)
    (v : Validator Client) :
    (query tx remaining p v).value.round.confirmations = p.round.confirmations := by
  unfold query
  cases p.pool.enqueue v.identity with
  | error e => rfl
  | ok pool =>
    simp only
    cases pool.take? with
    | none => rfl
    | some taken =>
      simp only
      split
      · rfl
      · rw [Traced.value_bind, ask_of_expired h]
        rfl

theorem queryAll_of_expired (h : remaining ≤ 0) (tx : Transaction) (vs : List (Validator Client))
    (p : Progress) :
    (queryAll tx remaining vs p).value.round.confirmations = p.round.confirmations := by
  induction vs generalizing p with
  | nil => rfl
  | cons v vs ih => rw [queryAll, Traced.value_bind, ih, query_of_expired h]

theorem collect_of_expired {timeout : Int64} {times : Times}
    (h : (Deadline.after times.start timeout).time ≤ times.asking) (pool : AskingPool)
    (tx : Transaction) (vs : List (Validator Client)) :
    (collect pool timeout times tx vs).value.1 = 0 := by
  cases vs with
  | nil => rfl
  | cons v vs =>
    simp only [collect, List.isEmpty_cons, Bool.false_eq_true, if_false, Traced.value_bind,
      Traced.value_pure]
    rw [Deadline.remaining_of_le h]
    exact queryAll_of_expired (Int64.le_refl 0) tx (v :: vs) _

end Round

/-! ### Timeouts of configurations -/

namespace Settings

variable {s : Settings} {key heading : Bytes}

theorem lt_of_getWord? {n : UInt64} (h : s.getWord? key heading = some n) : n.toNat < 2 ^ 63 := by
  obtain ⟨i, -, hi⟩ := Option.bind_eq_some_iff.1 h
  split at hi
  · simp at hi
  · rename_i hneg
    obtain rfl := Option.some.inj hi
    have hword := toNat_toUInt64_of_nonneg (Int64.not_lt.1 hneg)
    have hbound := i.toInt_lt
    omega

end Settings

namespace Node.Config

open Deadline (due Ordered)

variable {c c' : Config} {env : Environment} {s : Settings}

theorem timeout_lt_of_update (hw : s.WellFormed) (hs : s.contains Key.consensusTimeout)
    (h : c.update env s = .ok c') : c'.consensusTimeout.toNat < 2 ^ 63 :=
  Settings.lt_of_getWord?
    ((takes_singleton_of_contains hs).1 ((update_eq_ok_iff hw).1 h).consensusTimeout)

def timed (timeout : UInt64) : Settings :=
  ({} : Settings).set Key.consensusTimeout (Bytes.ofWord timeout)

theorem wellFormed_timed (timeout : UInt64) : (timed timeout).WellFormed := by
  have hkey : Settings.isKey Key.consensusTimeout := by decide
  exact Settings.wellFormed_empty.set hkey (.inl rfl) (Bytes.ofWord timeout)

theorem update_timed (c : Config) (env : Environment) {timeout : UInt64}
    (h : timeout.toNat < 2 ^ 63) :
    c.update env (timed timeout) = .ok { c with consensusTimeout := timeout } := by
  have hread : (timed timeout).getWord? Key.consensusTimeout = some timeout :=
    Settings.getWord?_of_get? rfl (by rw [Int64.toInt_maxValue]; omega)
  have hoverride : override (timed timeout) Key.consensusTimeout c.consensusTimeout
      ((timed timeout).getWord? Key.consensusTimeout) "milliseconds" = .ok timeout := by
    rw [hread]
    rfl
  simp only [update, overrides, List.foldlM_cons, List.foldlM_nil, bind_eq_ok_iff, map_eq_ok_iff,
    Except.ok.injEq, exists_eq_left', exists_exists_and_eq_and, hoverride]
  exact ⟨c.port, rfl, c.maxConnections, rfl, c.validatorThreads, rfl, c.logLevel, rfl, c.llm, rfl,
    rfl⟩

/-- Every clock up to `2 ^ 62` has room for a timeout only up to about 146 years. -/
theorem forall_due_lt_iff {timeout : UInt64} :
    (∀ now : Int64, 0 ≤ now → now.toInt ≤ 2 ^ 62 → due now timeout < 2 ^ 63) ↔
      timeout ≤ 4611686018427 := by
  have hgreatest : (4611686018427 : UInt64).toNat = 4611686018427 := rfl
  rw [UInt64.le_iff_toNat_le, hgreatest]
  constructor
  · intro h
    have hlast : (4611686018427387904 : Int64).toInt = 2 ^ 62 := rfl
    have hlt := h 4611686018427387904 (by decide) hlast.le
    rw [due, hlast] at hlt
    omega
  · intro h now _ hnow
    unfold due
    omega

/-- A round lasts as long as its configuration says, and no longer timeout makes it shorter, exactly
if its deadline fits the steady clock. For every clock up to `2 ^ 62` nanoseconds this is so up to a
timeout of 4611686018427 milliseconds, but settings may ask for any timeout that fits a signed word,
and nothing else about the configuration depends on it. -/
theorem deadlines_hold_iff (c : Config) (htimeout : 1 ≤ c.consensusTimeout) :
    (∀ now : Int64, 0 ≤ now →
      let d := Deadline.after now c.timeout
      let fits := due now c.consensusTimeout < 2 ^ 63
      (d.time.toInt = due now c.consensusTimeout ↔ fits) ∧
      ((d.remaining now).toInt = c.consensusTimeout.toNat ↔ fits) ∧
      (Ordered now c.consensusTimeout ↔ fits)) ∧
    ((∀ now : Int64, 0 ≤ now → now.toInt ≤ 2 ^ 62 → due now c.consensusTimeout < 2 ^ 63) ↔
      c.consensusTimeout ≤ 4611686018427) ∧
    (∀ (old : Config) (env : Environment) (s : Settings), s.WellFormed →
      s.contains Key.consensusTimeout → old.update env s = .ok c →
        c.consensusTimeout.toNat < 2 ^ 63) ∧
    (c.consensusTimeout.toNat < 2 ^ 63 → ∀ (timeout : UInt64) (env : Environment),
      let old := { c with consensusTimeout := timeout }
      (∃ s : Settings, s.WellFormed ∧ s.contains Key.consensusTimeout ∧
        old.update env s = .ok c) ∧
      ∀ files, old.fault? files = c.fault? files) := by
  refine ⟨fun now hnow => ?_, forall_due_lt_iff, fun old env s => timeout_lt_of_update,
    fun h timeout env => ?_⟩
  · exact ⟨Deadline.time_after_eq_due_iff hnow, Deadline.remaining_after_eq_iff hnow htimeout,
      Deadline.ordered_iff hnow⟩
  · intro old
    exact ⟨⟨timed c.consensusTimeout, wellFormed_timed _, rfl, update_timed old env h⟩,
      fun _ => rfl⟩

def patientNode : Config := { standard "n" with consensusTimeout := 4611686018427 }

theorem deadlines_hold_patientNode :
    let now : Int64 := 4611686018427387904
    let d := Deadline.after now patientNode.timeout
    1 ≤ patientNode.consensusTimeout ∧ 0 ≤ now ∧
    d.time.toInt = due now patientNode.consensusTimeout ∧
    (d.remaining now).toInt = patientNode.consensusTimeout.toNat ∧
    Ordered now patientNode.consensusTimeout ∧
    (∀ now : Int64, 0 ≤ now → now.toInt ≤ 2 ^ 62 →
      due now patientNode.consensusTimeout < 2 ^ 63) ∧
    ∃ s : Settings, s.WellFormed ∧ s.contains Key.consensusTimeout ∧
      (standard "n").update {} s = .ok patientNode ∧ patientNode.fault? {} = none ∧
      patientNode.consensusTimeout.toNat < 2 ^ 63 := by
  intro now d
  have htimeout : 1 ≤ patientNode.consensusTimeout := by decide
  have hnow : 0 ≤ now := by decide
  have hfits : due now patientNode.consensusTimeout < 2 ^ 63 := by decide
  obtain ⟨hholds, hclocks, hbound, haccepted⟩ := deadlines_hold_iff patientNode htimeout
  obtain ⟨htime, hremaining, hordered⟩ := hholds now hnow
  obtain ⟨⟨s, hw, hs, hupdate⟩, hfault⟩ := haccepted (by decide) 5000 {}
  exact ⟨htimeout, hnow, htime.2 hfits, hremaining.2 hfits, hordered.2 hfits,
    hclocks.2 (UInt64.le_refl _), s, hw, hs, hupdate, (hfault {}).symm.trans (by decide),
    hbound (standard "n") {} s hw hs hupdate⟩

def endlessNode : Config := { standard "n" with consensusTimeout := 9223372036854775807 }

/-- The longest timeout ends a millisecond before it starts. So nobody has any time to answer, and
no transaction is ever confirmed. -/
theorem not_deadlines_hold_endlessNode : ∃ s : Settings,
    Settings.readText {} {} "consensustimeout=9223372036854775807\n" "node.conf" = (.ok [], s) ∧
    (standard "n").update {} s = .ok endlessNode ∧ endlessNode.fault? {} = none ∧
    1 ≤ endlessNode.consensusTimeout ∧
    ∃ now : Int64, 0 ≤ now ∧ now.toInt ≤ 2 ^ 62 ∧
      let d := Deadline.after now endlessNode.timeout
      d.time = now - Deadline.nanosPerMilli ∧ d.remaining now = 0 ∧
      ¬Ordered now endlessNode.consensusTimeout ∧
      ∀ (pool : AskingPool) (tx : Transaction) (vs : List (Validator Client)),
        (Round.collect pool endlessNode.timeout ⟨now, now⟩ tx vs).value.1 = 0 := by
  refine ⟨_, rfl, by decide +kernel, by decide, by decide, 3600000000000, by decide, by decide, ?_⟩
  refine ⟨by decide, by decide, fun h => ?_, fun pool tx vs => ?_⟩
  · exact absurd (h 1000 endlessNode.consensusTimeout (by decide) (UInt64.le_refl _)) (by decide)
  · exact Round.collect_of_expired (by decide) pool tx vs

end Node.Config

end StakeQuorum
