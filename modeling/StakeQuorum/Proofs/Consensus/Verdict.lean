import StakeQuorum.Consensus.Round
import StakeQuorum.Proofs.Consensus.Quorum

/-! # When the verdict of a round stands

A round counts at most one answer of each of fewer than `2 ^ 63` validators. It is decided when a
quorum confirms, when a third or more refuses, or when nobody is left to answer, and from then on
no further answers change whether there is a quorum.
-/

namespace StakeQuorum.Round

variable {r : Round} {k : Nat}

/-- The counts of a round with at most one answer of each validator. -/
structure Tallied (r : Round) : Prop where
  few : r.size.toNat < 2 ^ 63
  bounded : r.confirmations.toNat + r.refusals.toNat ≤ r.size.toNat

namespace Tallied

theorem refusals_le (h : Tallied r) : r.refusals ≤ r.size := by
  have hb := h.bounded
  rw [UInt64.le_iff_toNat_le]
  omega

theorem hasQuorum_iff (h : Tallied r) :
    r.hasQuorum = true ↔ 2 * r.size.toNat < 3 * r.confirmations.toNat :=
  Quorum.reached_iff h.few

theorem isLost_iff (h : Tallied r) : r.isLost = true ↔ r.size.toNat ≤ 3 * r.refusals.toNat := by
  have hb := h.bounded
  rw [isLost, decide_eq_true_iff, UInt64.le_iff_toNat_le, Quorum.toNat_threshold h.few,
    UInt64.toNat_sub_of_le _ _ h.refusals_le]
  omega

theorem isFull_iff (h : Tallied r) : r.confirmations + r.refusals = r.size ↔
    r.confirmations.toNat + r.refusals.toNat = r.size.toNat := by
  have hb := h.bounded
  have hlt := r.size.toNat_lt
  rw [← UInt64.toNat_inj, UInt64.toNat_add, Nat.mod_eq_of_lt (by omega)]

theorem isDecided_iff (h : Tallied r) : r.isDecided = true ↔
    2 * r.size.toNat < 3 * r.confirmations.toNat ∨ r.size.toNat ≤ 3 * r.refusals.toNat ∨
      r.confirmations.toNat + r.refusals.toNat = r.size.toNat := by
  rw [isDecided, Bool.or_eq_true, Bool.or_eq_true, beq_iff_eq, h.hasQuorum_iff, h.isLost_iff,
    h.isFull_iff, or_assoc]

/-- Once a round is decided, every count of confirmations that it can still come to gives the same
verdict. -/
theorem verdict_stands (h : Tallied r) (hd : r.isDecided = true)
    (hlow : r.confirmations.toNat ≤ k) (hhigh : k + r.refusals.toNat ≤ r.size.toNat) :
    Quorum.reached r.confirmations r.size = Quorum.reached (UInt64.ofNat k) r.size := by
  have hlt := h.few
  have hk : (UInt64.ofNat k).toNat = k := Quorum.toNat_ofNat_of_few (by omega)
  rw [Bool.eq_iff_iff, Quorum.reached_iff h.few, Quorum.reached_iff h.few, hk]
  rcases h.isDecided_iff.1 hd with hwon | hlost | hfull
  · constructor <;> intro <;> omega
  · constructor <;> intro <;> omega
  · obtain rfl : k = r.confirmations.toNat := by omega
    rfl

/-! ### One more answer -/

theorem confirmations_answer (h : Tallied r) (confirms : Bool)
    (hroom : r.confirmations.toNat + r.refusals.toNat < r.size.toNat) :
    (r.answer confirms).confirmations.toNat =
      r.confirmations.toNat + if confirms then 1 else 0 := by
  have hlt := h.few
  have hone : (1 : UInt64).toNat = 1 := rfl
  cases confirms with
  | false => rfl
  | true => exact (UInt64.toNat_add ..).trans (by rw [hone, Nat.mod_eq_of_lt (by omega)]; rfl)

theorem refusals_answer (h : Tallied r) (confirms : Bool)
    (hroom : r.confirmations.toNat + r.refusals.toNat < r.size.toNat) :
    (r.answer confirms).refusals.toNat = r.refusals.toNat + if confirms then 0 else 1 := by
  have hlt := h.few
  have hone : (1 : UInt64).toNat = 1 := rfl
  cases confirms with
  | true => rfl
  | false => exact (UInt64.toNat_add ..).trans (by rw [hone, Nat.mod_eq_of_lt (by omega)]; rfl)

end Tallied

@[simp] theorem size_answer (r : Round) (confirms : Bool) : (r.answer confirms).size = r.size := by
  cases confirms <;> rfl

theorem Tallied.answer (h : Tallied r) (confirms : Bool)
    (hroom : r.confirmations.toNat + r.refusals.toNat < r.size.toNat) :
    Tallied (r.answer confirms) := by
  refine ⟨(size_answer r confirms).symm ▸ h.few, ?_⟩
  rw [h.confirmations_answer confirms hroom, h.refusals_answer confirms hroom, size_answer]
  cases confirms <;> simp <;> omega

end StakeQuorum.Round
