import Mathlib.Algebra.Group.Int.Defs
import Mathlib.Algebra.Group.Nat.Defs

/-! # Signed and unsigned words

A word of 64 bits stands for a signed and for an unsigned number. Both agree modulo `2 ^ 64`, and
they are the same number where it is not negative.
-/

namespace StakeQuorum

theorem toNat_toUInt64 (n : Int64) : (n.toUInt64.toNat : Int) = n.toInt % 2 ^ 64 := by
  have hlt : n.toBitVec.toNat < 2 ^ 64 := n.toBitVec.isLt
  have hword : (n.toUInt64.toNat : Int) = n.toBitVec.toNat := rfl
  have hsigned : n.toInt = (n.toBitVec.toNat : Int).bmod (2 ^ 64) := BitVec.toInt_eq_toNat_bmod _
  have hmod : n.toInt % (2 ^ 64 : Nat) = n.toBitVec.toNat % (2 ^ 64 : Nat) := by
    rw [hsigned, Int.bmod_emod]
  omega

theorem toNat_toUInt64_of_nonneg {n : Int64} (h : 0 ≤ n) : (n.toUInt64.toNat : Int) = n.toInt := by
  have hword := toNat_toUInt64 n
  have hlt := n.toInt_lt
  rw [Int64.le_iff_toInt_le, Int64.toInt_zero] at h
  omega

theorem toInt_toInt64 (n : UInt64) : n.toInt64.toInt = (n.toNat : Int).bmod (2 ^ 64) :=
  BitVec.toInt_eq_toNat_bmod n.toBitVec

end StakeQuorum
