import StakeQuorum.FixedBytes
import StakeQuorum.Proofs.Hex.Digits

/-! # Hexadecimal texts and byte strings

A byte string is read from its written form, in letters of either case, and from nothing else. So
the texts that can be read are those of digits in pairs, and digests are the ones of sixty-four
digits. The digits of a word are those of its eight bytes, the highest first.
-/

namespace StakeQuorum

namespace Hex

variable {c v high low : UInt8} {s bs bs' : Bytes}

/-! ### Digits of either case -/

/-- Digits of either case, in pairs. -/
def IsText (s : Bytes) : Prop :=
  s.length % 2 = 0 ∧ ∀ c ∈ s, ('0'.toUInt8 ≤ c ∧ c ≤ '9'.toUInt8) ∨
    ('a'.toUInt8 ≤ c ∧ c ≤ 'f'.toUInt8) ∨ ('A'.toUInt8 ≤ c ∧ c ≤ 'F'.toUInt8)

theorem map_digit_range :
    (List.range 16).map (fun n => digit (UInt8.ofNat n)) = Bytes.ofString "0123456789abcdef" := by
  decide

theorem digitValue?_eq (c : UInt8) : digitValue? c =
    if 48 ≤ c ∧ c ≤ 57 then some (c - 48) else if 97 ≤ c ∧ c ≤ 102 then some (c - 97 + 10)
    else if 65 ≤ c ∧ c ≤ 70 then some (c - 65 + 10) else none := by
  simp only [digitValue?, Bytes.isDigit, Bool.and_eq_true, decide_eq_true_eq]
  rfl

theorem toLower_eq (c : UInt8) : Bytes.toLower c = if 65 ≤ c ∧ c ≤ 90 then c + 32 else c := by
  simp only [Bytes.toLower, Bytes.isUpper, Bool.and_eq_true, decide_eq_true_eq]
  rfl

theorem isDigit_iff : isDigit c = true ↔ ('0'.toUInt8 ≤ c ∧ c ≤ '9'.toUInt8) ∨
    ('a'.toUInt8 ≤ c ∧ c ≤ 'f'.toUInt8) ∨ ('A'.toUInt8 ≤ c ∧ c ≤ 'F'.toUInt8) := by
  change (digitValue? c).isSome = true ↔
    (48 ≤ c ∧ c ≤ 57) ∨ (97 ≤ c ∧ c ≤ 102) ∨ (65 ≤ c ∧ c ≤ 70)
  rw [digitValue?_eq]
  grind

theorem isText_iff : IsText s ↔ s.length % 2 = 0 ∧ s.all isDigit = true := by
  simp only [IsText, List.all_eq_true, isDigit_iff]

theorem digitValue?_toLower (c : UInt8) : digitValue? (Bytes.toLower c) = digitValue? c := by
  rw [toLower_eq]
  split
  · have hcode : c + 32 - 97 = c - 65 := by grind
    rw [digitValue?_eq, digitValue?_eq, hcode]
    grind
  · rfl

theorem digit_of_digitValue? (h : digitValue? c = some v) :
    v < 16 ∧ digit v = Bytes.toLower c := by
  change v < 16 ∧ (if v < 10 then 48 + v else 97 + (v - 10)) = Bytes.toLower c
  rw [digitValue?_eq] at h
  rw [toLower_eq]
  split at h
  · cases h
    grind
  · split at h
    · cases h
      grind
    · split at h
      · cases h
        grind
      · cases h

theorem digitValue?_digit_of_lt (h : v < 16) : digitValue? (digit v) = some v := by
  have hread := digitValue?_digit (UInt8.lt_iff_toNat_lt.1 h)
  rwa [UInt8.ofNat_toNat] at hread

theorem toLower_digit (h : v < 16) : Bytes.toLower (digit v) = digit v :=
  (digit_of_digitValue? (digitValue?_digit_of_lt h)).2.symm

theorem digitValue?_eq_some_iff :
    digitValue? c = some v ↔ v < 16 ∧ digit v = Bytes.toLower c := by
  refine ⟨digit_of_digitValue?, fun ⟨hv, hc⟩ => ?_⟩
  rw [← digitValue?_toLower, ← hc, digitValue?_digit_of_lt hv]

theorem isLowerDigits_singleton :
    isLowerDigits [c] = true ↔ isDigit c = true ∧ Bytes.toLower c = c := by
  change ((decide (48 ≤ c) && decide (c ≤ 57) || (decide (97 ≤ c) && decide (c ≤ 102))) &&
    true) = true ↔ (digitValue? c).isSome = true ∧ Bytes.toLower c = c
  rw [digitValue?_eq, toLower_eq]
  grind

theorem isLowerDigits_cons :
    isLowerDigits (c :: s) = (isLowerDigits [c] && isLowerDigits s) := by
  simp [isLowerDigits]

theorem isLowerDigits_iff :
    isLowerDigits s = true ↔ s.all isDigit = true ∧ s.map Bytes.toLower = s := by
  induction s with
  | nil => simp [isLowerDigits]
  | cons c s ih =>
    rw [isLowerDigits_cons, Bool.and_eq_true, isLowerDigits_singleton, ih, List.all_cons,
      Bool.and_eq_true, List.map_cons, List.cons.injEq, and_and_and_comm]

/-! ### Bytes as pairs of digits -/

@[simp] theorem encode_nil : encode [] = [] := rfl

@[simp] theorem encode_cons (b : UInt8) (bs : Bytes) :
    encode (b :: bs) = digit (b / 16) :: digit (b % 16) :: encode bs := rfl

theorem encode_append (bs bs' : Bytes) : encode (bs ++ bs') = encode bs ++ encode bs' :=
  List.flatMap_append

theorem half_lt (b : UInt8) : b / 16 < 16 ∧ b % 16 < 16 := by grind

theorem join_halves (b : UInt8) : 16 * (b / 16) + b % 16 = b := by grind

theorem halves_join (hhigh : high < 16) (hlow : low < 16) :
    (16 * high + low) / 16 = high ∧ (16 * high + low) % 16 = low := by grind

theorem decodePairs_eq_some_iff :
    decodePairs s = some bs ↔ encode bs = s.map Bytes.toLower := by
  induction s using decodePairs.induct generalizing bs with
  | case1 => cases bs <;> simp [decodePairs]
  | case2 c => cases bs <;> simp [decodePairs]
  | case3 c d rest ih =>
    cases bs with
    | nil => simp [decodePairs, Option.bind_eq_some_iff]
    | cons b bs =>
      simp only [decodePairs, Option.bind_eq_bind, Option.bind_eq_some_iff, Option.pure_def,
        Option.some.injEq, digitValue?_eq_some_iff, ih, encode_cons, List.map_cons, List.cons.injEq]
      constructor
      · rintro ⟨high, ⟨hhigh, hc⟩, low, ⟨hlow, hd⟩, _, hrest, rfl, rfl⟩
        obtain ⟨hdiv, hmod⟩ := halves_join hhigh hlow
        exact ⟨hdiv.symm ▸ hc, hmod.symm ▸ hd, hrest⟩
      · rintro ⟨hc, hd, hrest⟩
        obtain ⟨hhigh, hlow⟩ := half_lt b
        exact ⟨b / 16, ⟨hhigh, hc⟩, b % 16, ⟨hlow, hd⟩, bs, hrest, join_halves b, rfl⟩

theorem isSome_decodePairs (s : Bytes) :
    (decodePairs s).isSome = (s.length % 2 == 0 && s.all isDigit) := by
  induction s using decodePairs.induct with
  | case1 => rfl
  | case2 c => rfl
  | case3 c d rest ih =>
    have hpair : (decodePairs (c :: d :: rest)).isSome =
        (isDigit c && isDigit d && (decodePairs rest).isSome) := by
      simp only [decodePairs, isDigit]
      cases digitValue? c <;> cases digitValue? d <;> cases decodePairs rest <;> rfl
    have hlength : (c :: d :: rest).length % 2 = rest.length % 2 := by
      simp only [List.length_cons]
      omega
    rw [hpair, ih, hlength, List.all_cons, List.all_cons]
    ac_rfl

/-! ### Reading and writing -/

/-- Bytes are read from what they are written as, in letters of either case. -/
theorem decode_eq_ok_iff : decode s = .ok bs ↔ encode bs = s.map Bytes.toLower := by
  rw [← decodePairs_eq_some_iff, decode]
  split
  · rename_i hodd
    have hnone : decodePairs s = none := by
      rw [← Option.not_isSome_iff_eq_none, isSome_decodePairs]
      simp [hodd]
    simp [hnone]
  · cases decodePairs s <;> simp

theorem exists_decode_iff : (∃ bs, decode s = .ok bs) ↔ IsText s := by
  simp only [decode_eq_ok_iff, ← decodePairs_eq_some_iff, ← Option.isSome_iff_exists,
    isSome_decodePairs, isText_iff, Bool.and_eq_true, beq_iff_eq]

theorem isValid_iff : isValid s = true ↔ s ≠ [] ∧ ∃ bs, decode s = .ok bs := by
  rw [exists_decode_iff, isText_iff]
  simp [isValid, and_assoc]

theorem map_toLower_encode (bs : Bytes) : (encode bs).map Bytes.toLower = encode bs := by
  induction bs with
  | nil => rfl
  | cons b bs ih =>
    obtain ⟨hhigh, hlow⟩ := half_lt b
    rw [encode_cons, List.map_cons, List.map_cons, toLower_digit hhigh, toLower_digit hlow, ih]

theorem decode_encode (bs : Bytes) : decode (encode bs) = .ok bs :=
  decode_eq_ok_iff.2 (map_toLower_encode bs).symm

theorem exists_encode_iff :
    (∃ bs, encode bs = s) ↔ s.length % 2 = 0 ∧ isLowerDigits s = true := by
  rw [isLowerDigits_iff, ← and_assoc, ← isText_iff, ← exists_decode_iff]
  constructor
  · rintro ⟨bs, rfl⟩
    exact ⟨⟨bs, decode_encode bs⟩, map_toLower_encode bs⟩
  · rintro ⟨⟨bs, hread⟩, hlower⟩
    exact ⟨bs, (decode_eq_ok_iff.1 hread).trans hlower⟩

/-! ### Words -/

theorem encodeByte_ofNat (n : Nat) : encodeByte (UInt8.ofNat n) = digits 2 n := by
  have hhigh : UInt8.ofNat n / 16 = UInt8.ofNat (n / 16 % 16) := by
    simp only [← UInt8.toNat_inj, UInt8.toNat_div, UInt8.toNat_ofNat', UInt8.reduceToNat]
    omega
  have hlow : UInt8.ofNat n % 16 = UInt8.ofNat (n % 16) := by
    simp only [← UInt8.toNat_inj, UInt8.toNat_mod, UInt8.toNat_ofNat', UInt8.reduceToNat]
    omega
  rw [encodeByte, hhigh, hlow]
  rfl

/-- Two digits for each byte, the highest byte first. -/
theorem digits_two_mul (k n : Nat) :
    digits (2 * k) n = encode (Bytes.littleEndian k n).reverse := by
  induction k generalizing n with
  | zero => rfl
  | succ k ih =>
    have hpair : digits (2 * (k + 1)) n = digits (2 * k) (n / 256) ++ digits 2 n := by
      simp [Nat.mul_succ, digits, Nat.div_div_eq_div_mul]
    rw [hpair, ih, ← encodeByte_ofNat, Bytes.littleEndian, List.reverse_cons, encode_append]
    simp [encode]

end Hex

namespace Digest

variable {s : Bytes} {d : Digest}

theorem length_toHex (d : Digest) : d.toHex.length = 64 := by
  rw [FixedBytes.toHex, Hex.length_encode, d.length_bytes]

theorem ofHex_eq_ok_iff : ofHex s = .ok d ↔ d.toHex = s.map Bytes.toLower := by
  unfold ofHex
  split
  · rename_i hlength
    simp only [reduceCtorEq, false_iff]
    intro h
    have heq := congrArg List.length h
    rw [length_toHex, List.length_map] at heq
    exact hlength heq.symm
  · rename_i hlength
    rw [FixedBytes.toHex, ← Hex.decode_eq_ok_iff]
    cases hread : Hex.decode s with
    | error e => simp
    | ok bs =>
      have hbytes : bs.length = 32 := by
        have heq := congrArg List.length (Hex.decode_eq_ok_iff.1 hread)
        rw [Hex.length_encode, List.length_map] at heq
        omega
      have hpad : FixedBytes.pad 32 bs = ⟨bs, hbytes⟩ := FixedBytes.pad_bytes ⟨bs, hbytes⟩
      simp [hpad, FixedBytes.ext_iff]

theorem ofHex_toHex (d : Digest) : ofHex d.toHex = .ok d :=
  ofHex_eq_ok_iff.2 (Hex.map_toLower_encode d.bytes).symm

theorem exists_ofHex_iff :
    (∃ d, ofHex s = .ok d) ↔ s.length = 64 ∧ ∃ bs, Hex.decode s = .ok bs := by
  unfold ofHex
  split
  · rename_i hlength
    simp [hlength]
  · rename_i hlength
    rw [ne_eq, Decidable.not_not] at hlength
    cases Hex.decode s <;> simp [hlength]

end Digest

namespace Hex

/-- Byte strings, digests and words share one form over one alphabet. What has been written is read
back. Exactly the digits in pairs can be read, and they are what the bytes are written as, in
letters of either case: the valid texts are those that are not empty, what is written is those in
lower case, and a digest is one of sixty-four digits. A word is written as its eight bytes are, the
highest first, so that different words are written differently. -/
theorem texts_agree :
    (List.range 16).map (fun n => digit (UInt8.ofNat n)) = Bytes.ofString "0123456789abcdef" ∧
    (∀ bs, decode (encode bs) = .ok bs) ∧
    (∀ s, (∃ bs, decode s = .ok bs) ↔ IsText s) ∧
    (∀ s bs, decode s = .ok bs ↔ encode bs = s.map Bytes.toLower) ∧
    (∀ s, isValid s = true ↔ s ≠ [] ∧ ∃ bs, decode s = .ok bs) ∧
    (∀ s, (∃ bs, encode bs = s) ↔ s.length % 2 = 0 ∧ isLowerDigits s = true) ∧
    (∀ s, (∃ d, Digest.ofHex s = .ok d) ↔ s.length = 64 ∧ ∃ bs, decode s = .ok bs) ∧
    (∀ d : Digest, Digest.ofHex d.toHex = .ok d) ∧
    (∀ (s : Bytes) (d : Digest), Digest.ofHex s = .ok d ↔ d.toHex = s.map Bytes.toLower) ∧
    (∀ v : UInt64, word v = encode (Bytes.littleEndian 8 v.toNat).reverse) ∧
    (∀ v w : UInt64, word v = word w ↔ v = w) := by
  refine ⟨map_digit_range, decode_encode, fun s => exists_decode_iff, fun s bs => decode_eq_ok_iff,
    fun s => isValid_iff, fun s => exists_encode_iff, fun s => Digest.exists_ofHex_iff,
    Digest.ofHex_toHex, fun s d => Digest.ofHex_eq_ok_iff, fun v => ?_, fun v w => word_inj⟩
  exact digits_two_mul 8 v.toNat

/-- Letters of either case are read, half a byte is not, and different words look different. -/
theorem texts_agree_eitherCase : decode "00FFa5" = .ok [0x00, 0xFF, 0xA5] ∧
    isValid "00FFa5" = true ∧ (¬ ∃ bs, decode "00FFa" = .ok bs) ∧
    (∃ d, Digest.ofHex (List.replicate 64 'F'.toUInt8) = .ok d) ∧ word 1 ≠ word 2 := by
  obtain ⟨-, -, htext, hread, hvalid, -, hdigest, -, -, -, hword⟩ := texts_agree
  have hbytes : decode "00FFa5" = .ok [0x00, 0xFF, 0xA5] := (hread _ _).2 (by decide)
  refine ⟨hbytes, (hvalid _).2 ⟨by decide, _, hbytes⟩, fun h => ?_, ?_, fun h => ?_⟩
  · exact absurd ((htext _).1 h).1 (by decide)
  · refine (hdigest _).2 ⟨List.length_replicate, (htext _).2 ⟨by decide, fun c hc => ?_⟩⟩
    rw [List.eq_of_mem_replicate hc]
    decide
  · exact absurd ((hword 1 2).1 h) (by decide)

end Hex

end StakeQuorum
