import StakeQuorum.Proofs.Base58.RoundTrip

/-! # How long the texts of keys are

A text has one digit for every leading zero byte, and behind them as many digits as the number of
the bytes has. The thirty-two bytes of a key make at most forty-four digits, and exactly forty-four
if the number is large enough for its leading zeros.
-/

namespace StakeQuorum.Base58

variable {base factor n k r : Nat} {room : Nat → Nat} {ds : List Nat} {bs : Bytes}

/-! ### Leading zeros and digits -/

def leadingZeros (ds : List Nat) : Nat := (ds.takeWhile (· == 0)).length

theorem value_dropWhile_zero (base : Nat) (ds : List Nat) :
    value base (ds.dropWhile (· == 0)) = value base ds := by
  conv_rhs => rw [← List.takeWhile_append_dropWhile (p := (· == 0)) (l := ds), takeWhile_zero,
    value, List.reverse_append, List.reverse_replicate, Nat.ofDigits_append_replicate_zero]
  rfl

theorem length_digits_value (hfactor : 1 < factor) (h : Below factor ds) :
    (Nat.digits factor (value factor ds)).length + leadingZeros ds = ds.length := by
  have hdigits := digits_value hfactor (below_dropWhile h) (head?_dropWhile_zero ds)
  have hlength := congrArg List.length hdigits
  have hsplit := congrArg List.length (List.takeWhile_append_dropWhile (p := (· == 0)) (l := ds))
  rw [List.length_reverse, value_dropWhile_zero] at hlength
  rw [List.length_append] at hsplit
  unfold leadingZeros
  omega

theorem length_recode (hroom : Suffices base factor room) (hbase : 1 < base) (hfactor : 1 < factor)
    (h : Below factor ds) : (recode base factor room ds).length =
      leadingZeros ds + (Nat.digits base (value factor ds)).length := by
  rw [recode_eq hroom hbase hfactor h, List.length_append, List.length_replicate,
    List.length_reverse, value_dropWhile_zero]
  rfl

/-! ### Digits in two bases -/

theorem length_digits_le (hbase : 1 < base) (hle : base ≤ factor) (n : Nat) :
    (Nat.digits factor n).length ≤ (Nat.digits base n).length := by
  rw [Nat.digits_length_le_iff (by omega)]
  calc n < base ^ (Nat.digits base n).length := Nat.lt_base_pow_length_digits hbase
    _ ≤ factor ^ (Nat.digits base n).length := Nat.pow_le_pow_left hle _

theorem pow_le_pow_add (hbase : 0 < base) (hle : base ≤ factor)
    (hpow : factor ^ n ≤ base ^ (n + k)) (hr : r ≤ n) : factor ^ r ≤ base ^ (r + k) := by
  obtain ⟨i, rfl⟩ := Nat.exists_eq_add_of_le hr
  refine Nat.le_of_mul_le_mul_left ?_ (Nat.pow_pos hbase : 0 < base ^ i)
  calc base ^ i * factor ^ r ≤ factor ^ i * factor ^ r :=
        Nat.mul_le_mul_right _ (Nat.pow_le_pow_left hle i)
    _ = factor ^ (r + i) := by rw [← Nat.pow_add, Nat.add_comm]
    _ ≤ base ^ (r + i + k) := hpow
    _ = base ^ i * base ^ (r + k) := by rw [← Nat.pow_add]; congr 1; omega

theorem length_digits_le_add (hbase : 1 < base) (hle : base ≤ factor)
    (hpow : factor ^ n ≤ base ^ (n + k)) {v : Nat} (hv : (Nat.digits factor v).length ≤ n) :
    (Nat.digits base v).length ≤ (Nat.digits factor v).length + k := by
  rw [Nat.digits_length_le_iff hbase]
  calc v < factor ^ (Nat.digits factor v).length := Nat.lt_base_pow_length_digits (by omega)
    _ ≤ base ^ ((Nat.digits factor v).length + k) := pow_le_pow_add (by omega) hle hpow hv

/-! ### Texts of thirty-two bytes -/

def number (bs : Bytes) : Nat := value 256 (bs.map UInt8.toNat)

theorem length_encode_eq (h : bs.length = 32) : ∃ zeros,
    (Nat.digits 256 (number bs)).length + zeros = 32 ∧
      (encode bs).length = zeros + (Nat.digits 58 (number bs)).length := by
  have hbelow := below_toNat bs
  refine ⟨leadingZeros (bs.map UInt8.toNat), ?_, ?_⟩
  · rw [← h, ← bs.length_map UInt8.toNat]
    exact length_digits_value (by decide) hbelow
  · rw [encode_eq, List.length_map]
    exact length_recode suffices_digitRoom (by decide) (by decide) hbelow

theorem length_encode_bounds (h : bs.length = 32) :
    32 ≤ (encode bs).length ∧ (encode bs).length ≤ 44 := by
  obtain ⟨zeros, hbytes, htext⟩ := length_encode_eq h
  have hlow : (Nat.digits 256 (number bs)).length ≤ (Nat.digits 58 (number bs)).length :=
    length_digits_le (by decide) (by decide) _
  have hhigh : (Nat.digits 58 (number bs)).length ≤ (Nat.digits 256 (number bs)).length + 12 :=
    length_digits_le_add (n := 32) (by decide) (by decide) (by norm_num) (by omega)
  omega

/-- Without a leading zero, and with one, there are numbers on both sides; with more of them there
are always fewer digits. -/
theorem length_encode_eq_iff (h : bs.length = 32) : (encode bs).length = 44 ↔
    58 ^ 43 ≤ number bs ∨ 58 ^ 42 ≤ number bs ∧ number bs < 256 ^ 31 := by
  obtain ⟨zeros, hbytes, htext⟩ := length_encode_eq h
  have hhigh : (Nat.digits 58 (number bs)).length ≤ (Nat.digits 256 (number bs)).length + 12 :=
    length_digits_le_add (n := 32) (by decide) (by decide) (by norm_num) (by omega)
  have hshort : (Nat.digits 256 (number bs)).length ≤ 30 →
      (Nat.digits 58 (number bs)).length ≤ (Nat.digits 256 (number bs)).length + 11 :=
    length_digits_le_add (by decide) (by decide) (by norm_num)
  rw [← Nat.lt_digits_length_iff (by decide), ← Nat.lt_digits_length_iff (by decide),
    ← Nat.digits_length_le_iff (by decide)]
  omega

theorem isAlphanumeric_digit {v : Nat} (h : v < 58) : Bytes.isAlphanumeric (digit v) = true := by
  revert v
  decide

theorem isAlphanumeric_encode (bs : Bytes) : (encode bs).all Bytes.isAlphanumeric = true := by
  obtain ⟨vs, hvs, htext⟩ := isBase58_iff.1 (isBase58_of_decode? (decode?_encode bs))
  rw [htext, List.all_map, List.all_eq_true]
  exact fun v hv => isAlphanumeric_digit (hvs v hv)

end StakeQuorum.Base58
