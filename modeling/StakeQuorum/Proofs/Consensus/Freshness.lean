import StakeQuorum.Consensus.Manager
import StakeQuorum.Proofs.Words

/-! # Freshness over the whole range of times

The age of a transaction does not always fit a signed word, but what wraps as an unsigned word is
the age itself whenever there is one. So the test of freshness is that of the unbounded numbers.
-/

namespace StakeQuorum.Consensus.Manager

variable {timeout now timestamp : Int64}

/-- The age of a transaction of the past, up to twice what a signed word holds. -/
theorem toNat_age (h : timestamp < now) :
    ((now.toUInt64 - timestamp.toUInt64).toNat : Int) = now.toInt - timestamp.toInt := by
  have hnow := toNat_toUInt64 now
  have hthen := toNat_toUInt64 timestamp
  have hlt := now.toInt_lt
  have hle := timestamp.le_toInt
  rw [Int64.lt_iff_toInt_lt] at h
  rw [UInt64.toNat_sub]
  omega

theorem isFresh_iff (ht : 0 ≤ timeout) : isFresh timeout now timestamp = true ↔
    now.toInt ≤ timestamp.toInt ∨ now.toInt - timestamp.toInt < timeout.toInt := by
  rw [isFresh, Bool.or_eq_true, decide_eq_true_iff, decide_eq_true_iff, UInt64.lt_iff_toNat_lt,
    ← Int64.le_iff_toInt_le]
  by_cases h : now ≤ timestamp
  · simp [h]
  · have hage := toNat_age (Int64.not_le.1 h)
    have htimeout := toNat_toUInt64_of_nonneg ht
    simp only [h, false_or]
    omega

theorem isFresh_mono {timeout' now' timestamp' : Int64} (ht : 0 ≤ timeout)
    (htimeout : timeout ≤ timeout') (hnow : now' ≤ now) (htimestamp : timestamp ≤ timestamp')
    (h : isFresh timeout now timestamp = true) : isFresh timeout' now' timestamp' = true := by
  rw [isFresh_iff ht] at h
  rw [isFresh_iff (Int64.le_trans ht htimeout)]
  rw [Int64.le_iff_toInt_le] at htimeout hnow htimestamp
  omega

theorem checkTime_of_read {m : Manager} {clock : Clock} (h : clock.read.1 = .ok now) :
    m.checkTime clock timestamp = (.ok (isFresh m.timeout now timestamp), clock.read.2) := by
  unfold checkTime
  generalize clock.read = r at h ⊢
  obtain ⟨reading, clock'⟩ := r
  obtain rfl : reading = .ok now := h
  rfl

/-- With a timeout that is not negative a transaction is fresh exactly if its time has not passed,
or has passed by less than the timeout over the unbounded integers. A later time, a longer timeout
and an earlier clock therefore never make it stale. -/
theorem freshness_exact :
    (∀ (m : Manager) (clock : Clock) (now timestamp : Int64), 0 ≤ m.timeout →
      clock.read.1 = .ok now → ∃ fresh,
        m.checkTime clock timestamp = (.ok fresh, clock.read.2) ∧
        (fresh = true ↔ now.toInt ≤ timestamp.toInt ∨
          now.toInt - timestamp.toInt < m.timeout.toInt)) ∧
    (∀ (m m' : Manager) (clock clock' : Clock) (now now' timestamp timestamp' : Int64),
      0 ≤ m.timeout → m.timeout ≤ m'.timeout →
      clock.read.1 = .ok now → clock'.read.1 = .ok now' → now' ≤ now → timestamp ≤ timestamp' →
      (m.checkTime clock timestamp).1 = .ok true →
        (m'.checkTime clock' timestamp').1 = .ok true) := by
  constructor
  · intro m clock now timestamp ht hread
    exact ⟨isFresh m.timeout now timestamp, checkTime_of_read hread, isFresh_iff ht⟩
  · intro m m' clock clock' now now' timestamp timestamp' ht htimeout hread hread' hnow htimestamp h
    rw [checkTime_of_read hread, Except.ok.injEq] at h
    rw [checkTime_of_read hread', isFresh_mono ht htimeout hnow htimestamp h]

/-- With the longest timeout the greatest clock reading reaches back to one, where the ages still
fit a signed word, but not to the least time, where the age takes all bits of an unsigned one. -/
theorem freshness_exact_longestTimeout :
    let m := new Int64.maxValue 1
    let late := Clock.constant Int64.maxValue
    let early := Clock.constant (-2)
    0 ≤ m.timeout ∧ m.timeout ≤ m.timeout ∧
    late.read.1 = .ok Int64.maxValue ∧ early.read.1 = .ok (-2) ∧
    (m.checkTime late 1).1 = .ok true ∧
    (m.checkTime late Int64.minValue).1 = .ok false ∧
    (-2 : Int64) ≤ Int64.maxValue ∧ (1 : Int64) ≤ 1 ∧
    (m.checkTime early 1).1 = .ok true := by
  intro m late early
  have ht : 0 ≤ m.timeout := by decide
  have hlate : late.read.1 = .ok Int64.maxValue := rfl
  have hearly : early.read.1 = .ok (-2) := rfl
  obtain ⟨hexact, hmono⟩ := freshness_exact
  obtain ⟨fresh, hone, hfresh⟩ := hexact m late _ 1 ht hlate
  obtain ⟨ancient, hleast, hancient⟩ := hexact m late _ Int64.minValue ht hlate
  obtain rfl : fresh = true := hfresh.2 (by decide)
  obtain rfl : ancient = false := Bool.eq_false_iff.2 fun h => absurd (hancient.1 h) (by decide)
  have hone : (m.checkTime late 1).1 = .ok true := congrArg Prod.fst hone
  exact ⟨ht, by decide, hlate, hearly, hone, congrArg Prod.fst hleast, by decide, by decide,
    hmono m m late early _ _ 1 1 ht (by decide) hlate hearly (by decide) (by decide) hone⟩

end StakeQuorum.Consensus.Manager
