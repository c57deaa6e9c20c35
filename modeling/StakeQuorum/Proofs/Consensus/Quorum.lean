import Mathlib
import StakeQuorum.Consensus.Quorum

/-! # Quorum arithmetic

The threshold of fewer than `2 ^ 63` validators does not wrap. A quorum is then strictly more than
two thirds of them over the unbounded numbers, so that any two quorums have more than a third of
all validators in common.
-/

namespace StakeQuorum.Quorum

variable {n k k' : UInt64}

theorem toNat_threshold (h : n.toNat < 2 ^ 63) : (threshold n).toNat = 2 * n.toNat / 3 := by
  have hwrap : n.toNat * 2 % 2 ^ 64 = 2 * n.toNat := by omega
  have htwo : (2 : UInt64).toNat = 2 := rfl
  have hthree : (3 : UInt64).toNat = 3 := rfl
  rw [threshold, UInt64.toNat_div, UInt64.toNat_mul, htwo, hthree, hwrap]

theorem reached_iff (h : n.toNat < 2 ^ 63) : reached k n = true ↔ 2 * n.toNat < 3 * k.toNat := by
  rw [reached, decide_eq_true_iff, UInt64.lt_iff_toNat_lt, toNat_threshold h]
  omega

theorem toNat_ofNat_of_few {n : Nat} (h : n < 2 ^ 63) : (UInt64.ofNat n).toNat = n :=
  UInt64.toNat_ofNat_of_lt (Nat.lt_trans h (by decide))

theorem reached_ofNat_iff {n k : Nat} (hn : n < 2 ^ 63) (hk : k ≤ n) :
    reached (UInt64.ofNat k) (UInt64.ofNat n) = true ↔ 2 * n < 3 * k := by
  have hsize := toNat_ofNat_of_few hn
  have hcount := toNat_ofNat_of_few (hk.trans_lt hn)
  rw [reached_iff (hsize.trans_lt hn), hsize, hcount]

theorem threshold_lt (h : 0 < n) : threshold n < n := by
  have htwo : (2 : UInt64).toNat = 2 := rfl
  have hthree : (3 : UInt64).toNat = 3 := rfl
  rw [UInt64.lt_iff_toNat_lt, UInt64.toNat_zero] at h
  rw [UInt64.lt_iff_toNat_lt, threshold, UInt64.toNat_div, UInt64.toNat_mul, htwo, hthree]
  have hwrap : n.toNat * 2 % 2 ^ 64 ≤ n.toNat * 2 := Nat.mod_le _ _
  omega

theorem reached_mono (hk : k ≤ k') (h : reached k n = true) : reached k' n = true := by
  rw [reached, decide_eq_true_iff] at h ⊢
  exact UInt64.lt_of_lt_of_le h hk

section Sets

variable {α : Type*} [DecidableEq α] {V A B : Finset α}

omit [DecidableEq α] in
theorem reached_card_iff (hV : V.card < 2 ^ 63) (hA : A ⊆ V) :
    reached (UInt64.ofNat A.card) (UInt64.ofNat V.card) = true ↔ 2 * V.card < 3 * A.card :=
  reached_ofNat_iff hV (Finset.card_le_card hA)

theorem card_add_card_le (hA : A ⊆ V) (hB : B ⊆ V) :
    A.card + B.card ≤ V.card + (A ∩ B).card := by
  have hunion : (A ∪ B).card ≤ V.card := Finset.card_le_card (Finset.union_subset hA hB)
  have hsplit := Finset.card_union_add_card_inter A B
  omega

/-- Of fewer than `2 ^ 63` validators a quorum is strictly more than two thirds, and two quorums
have more than a third in common. Nobody is no quorum, all validators are one, and more
confirmations stay one. -/
theorem quorums_intersect :
    (∀ n k : UInt64, n.toNat < 2 ^ 63 → (reached k n = true ↔ 2 * n.toNat < 3 * k.toNat)) ∧
    (∀ V A B : Finset α, V.card < 2 ^ 63 → A ⊆ V → B ⊆ V →
      reached (UInt64.ofNat A.card) (UInt64.ofNat V.card) = true →
      reached (UInt64.ofNat B.card) (UInt64.ofNat V.card) = true →
        V.card < 3 * (A ∩ B).card) ∧
    reached 0 0 = false ∧
    (∀ n : UInt64, 1 ≤ n → reached n n = true) ∧
    (∀ n k k' : UInt64, k ≤ k' → reached k n = true → reached k' n = true) := by
  refine ⟨fun n k => reached_iff, ?_, by decide, ?_, fun n k k' => reached_mono⟩
  · intro V A B hV hA hB ha hb
    have hA' := (reached_card_iff hV hA).1 ha
    have hB' := (reached_card_iff hV hB).1 hb
    have hsum := card_add_card_le hA hB
    omega
  · intro n hn
    have hpos : 0 < n := UInt64.lt_of_lt_of_le (by decide) hn
    rw [reached, decide_eq_true_iff]
    exact threshold_lt hpos

/-- Of five validators four confirm and then another four, so that three confirm both times. The
largest set without wrapping has a quorum in the next number after two thirds, and in any more. -/
theorem quorums_intersect_fourOfFive :
    let V : Finset ℕ := {0, 1, 2, 3, 4}
    let A : Finset ℕ := {0, 1, 2, 3}
    let B : Finset ℕ := {1, 2, 3, 4}
    let n : UInt64 := 9223372036854775807
    let k : UInt64 := 6148914691236517205
    V.card < 2 ^ 63 ∧ A ⊆ V ∧ B ⊆ V ∧
      reached (UInt64.ofNat A.card) (UInt64.ofNat V.card) = true ∧
      reached (UInt64.ofNat B.card) (UInt64.ofNat V.card) = true ∧
      V.card < 3 * (A ∩ B).card ∧
      n.toNat < 2 ^ 63 ∧ 2 * n.toNat < 3 * k.toNat ∧ reached k n = true ∧
      1 ≤ n ∧ reached n n = true ∧ k ≤ k + 1 ∧ reached (k + 1) n = true := by
  intro V A B n k
  have hV : V.card < 2 ^ 63 := by decide
  have hA : A ⊆ V := by decide
  have hB : B ⊆ V := by decide
  have ha : reached (UInt64.ofNat A.card) (UInt64.ofNat V.card) = true := by decide
  have hb : reached (UInt64.ofNat B.card) (UInt64.ofNat V.card) = true := by decide
  have hn : n.toNat < 2 ^ 63 := by decide
  have hk : 2 * n.toNat < 3 * k.toNat := by decide
  have hpos : 1 ≤ n := by decide
  have hmore : k ≤ k + 1 := by decide
  obtain ⟨hiff, hcommon, -, hall, hmono⟩ := quorums_intersect (α := ℕ)
  have hreached : reached k n = true := (hiff n k hn).2 hk
  exact ⟨hV, hA, hB, ha, hb, hcommon V A B hV hA hB ha hb, hn, hk, hreached, hpos, hall n hpos,
    hmore, hmono n k (k + 1) hmore hreached⟩

end Sets

end StakeQuorum.Quorum
