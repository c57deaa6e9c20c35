import Mathlib
import StakeQuorum.Bytes

/-! # The values of little-endian numbers

The bytes of a number determine it modulo a power of 256, and every value that fits is reached.
-/

namespace StakeQuorum.Bytes

theorem ofLittleEndian_lt (bs : Bytes) : ofLittleEndian bs < 256 ^ bs.length := by
  induction bs with
  | nil => simp [ofLittleEndian]
  | cons b bs ih =>
    have hb : b.toNat < 256 := b.toNat_lt
    simp only [ofLittleEndian, List.length_cons, Nat.pow_succ]
    omega

@[simp] theorem ofLittleEndian_littleEndian (k n : Nat) :
    ofLittleEndian (littleEndian k n) = n % 256 ^ k := by
  induction k generalizing n with
  | zero => simp [littleEndian, ofLittleEndian, Nat.mod_one]
  | succ k ih =>
    have hp : (256 : Nat) ^ (k + 1) = 256 * 256 ^ k := Nat.pow_succ'
    rw [hp, Nat.mod_mul, littleEndian, ofLittleEndian, ih, UInt8.toNat_ofNat']

end StakeQuorum.Bytes
