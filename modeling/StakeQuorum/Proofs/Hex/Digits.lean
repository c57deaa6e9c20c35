import Mathlib.Algebra.Group.Nat.Defs
import StakeQuorum.Hex

/-! # Numbers and their hexadecimal digits

The low `k` digits of a number determine it modulo `16 ^ k`, so a word is known by its sixteen
digits.
-/

namespace StakeQuorum.Hex

variable {k m n : Nat}

theorem digitValue?_digit (h : n < 16) :
    digitValue? (digit (UInt8.ofNat n)) = some (UInt8.ofNat n) := by
  revert h
  revert n
  decide

theorem digit_inj (hm : m < 16) (hn : n < 16) :
    digit (UInt8.ofNat m) = digit (UInt8.ofNat n) ↔ m = n := by
  refine ⟨fun h => ?_, fun h => h ▸ rfl⟩
  have hvalue := congrArg digitValue? h
  rw [digitValue?_digit hm, digitValue?_digit hn, Option.some.injEq, ← UInt8.toNat_inj,
    UInt8.toNat_ofNat', UInt8.toNat_ofNat'] at hvalue
  omega

theorem digits_inj : digits k m = digits k n ↔ m % 16 ^ k = n % 16 ^ k := by
  induction k generalizing m n with
  | zero => simp [digits, Nat.mod_one]
  | succ k ih =>
    have hm : m % 16 < 16 := Nat.mod_lt m (by decide)
    have hn : n % 16 < 16 := Nat.mod_lt n (by decide)
    rw [digits, digits, List.append_singleton_inj, ih,
      digit_inj hm hn, Nat.pow_succ', Nat.mod_mul, Nat.mod_mul]
    omega

theorem word_inj {v w : UInt64} : word v = word w ↔ v = w := by
  have hv : v.toNat < 16 ^ 16 := v.toNat_lt
  have hw : w.toNat < 16 ^ 16 := w.toNat_lt
  rw [word, word, digits_inj, Nat.mod_eq_of_lt hv, Nat.mod_eq_of_lt hw, UInt64.toNat_inj]

end StakeQuorum.Hex
