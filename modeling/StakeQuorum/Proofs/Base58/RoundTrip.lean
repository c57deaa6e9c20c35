import StakeQuorum.Proofs.Base58.Conversion

/-! # Base58 texts and byte strings

A conversion between bases keeps the leading zeros and the number behind them, so that converting
back undoes it. Byte strings and texts of Base58 digits therefore correspond one to one, and the
room that both conversions are given is enough for every length.
-/

namespace StakeQuorum.Base58

variable {base factor p q n v : Nat} {room room' : Nat → Nat} {ds vs : List Nat} {bs s : Bytes}
  {c : UInt8}

/-! ### Room -/

/-- The room for a number of digits is enough for every number that has so many. -/
def Suffices (base factor : Nat) (room : Nat → Nat) : Prop := ∀ n, factor ^ n ≤ base ^ room n

/-- One pair of powers tells how fast the room has to grow. -/
theorem suffices_of_pow_le (hbase : 0 < base) (hp : p ≠ 0) (hpow : factor ^ p ≤ base ^ q)
    (hroom : ∀ n, q * n ≤ p * room n) : Suffices base factor room := by
  intro n
  rw [← Nat.pow_le_pow_iff_left hp]
  calc (factor ^ n) ^ p = (factor ^ p) ^ n := Nat.pow_right_comm _ _ _
    _ ≤ (base ^ q) ^ n := Nat.pow_le_pow_left hpow n
    _ = base ^ (q * n) := (Nat.pow_mul _ _ _).symm
    _ ≤ base ^ (p * room n) := Nat.pow_le_pow_right hbase (hroom n)
    _ = (base ^ room n) ^ p := by rw [Nat.mul_comm, Nat.pow_mul]

-- 11 / 8 lies between log 256 / log 58 and the 138 / 100 that the room grows by
theorem suffices_digitRoom : Suffices 58 256 digitRoom :=
  suffices_of_pow_le (p := 8) (q := 11) (by decide) (by decide) (by norm_num) fun n => by
    unfold digitRoom
    omega

-- 52 / 71 lies between log 58 / log 256 and the 733 / 1000 that the room grows by
theorem suffices_byteRoom : Suffices 256 58 byteRoom :=
  suffices_of_pow_le (p := 71) (q := 52) (by decide) (by decide) (by norm_num) fun n => by
    unfold byteRoom
    omega

theorem Suffices.value_lt (hroom : Suffices base factor room) (hfactor : 1 < factor)
    (h : Below factor ds) (hn : ds.length ≤ n) : value factor ds < base ^ room n :=
  calc value factor ds < factor ^ ds.length := Base58.value_lt hfactor h
    _ ≤ factor ^ n := Nat.pow_le_pow_right (by omega) hn
    _ ≤ base ^ room n := hroom n

/-- In a conversion of up to `n` digits no step carries anything out of the buffer, and steps that
keep to the digits in use leave the same buffer. -/
def Lossless (base factor : Nat) (room : Nat → Nat) : Prop :=
  ∀ n ds d, Below factor (ds ++ [d]) → ds.length < n →
    (mulAdd base factor (convert base factor (room n) ds) d).2 = 0 ∧
    (sweeps base factor (room n) (ds ++ [d])).carry = 0 ∧
    (sweeps base factor (room n) (ds ++ [d])).digits = convert base factor (room n) (ds ++ [d])

theorem Suffices.lossless (hroom : Suffices base factor room) (hfactor : 1 < factor) :
    Lossless base factor room := by
  intro n ds d h hn
  have hlt := hroom.value_lt hfactor h (by simpa using hn)
  exact ⟨carry_convert (by omega) hlt, carry_sweeps (by omega) hlt, (sweeps_spec _ _ _ _).1⟩

theorem significant_convert (hroom : Suffices base factor room) (hbase : 1 < base)
    (hfactor : 1 < factor) (h : Below factor ds) :
    significant (convert base factor (room ds.length) ds) =
      (Nat.digits base (value factor ds)).reverse := by
  rw [significant_eq_digits hbase (below_convert (by omega) _ _ _),
    ofDigits_convert (by omega) (hroom.value_lt hfactor h le_rfl)]

/-! ### There and back -/

/-- Digits in another base: leading zeros are kept, and the rest is converted as a number. -/
def recode (base factor : Nat) (room : Nat → Nat) (ds : List Nat) : List Nat :=
  let rest := ds.dropWhile (· == 0)
  List.replicate (ds.takeWhile (· == 0)).length 0 ++
    significant (convert base factor (room rest.length) rest)

theorem below_dropWhile (h : Below factor ds) : Below factor (ds.dropWhile (· == 0)) :=
  fun d hd => h d ((List.dropWhile_sublist _).subset hd)

theorem takeWhile_replicate_append {α : Type} [DecidableEq α] {a : α} {l : List α} (n : Nat)
    (h : l.head? ≠ some a) :
    (List.replicate n a ++ l).takeWhile (· == a) = List.replicate n a := by
  rw [List.takeWhile_append_of_pos (by simp), List.append_right_eq_self]
  cases l <;> simp_all

theorem dropWhile_replicate_append {α : Type} [DecidableEq α] {a : α} {l : List α} (n : Nat)
    (h : l.head? ≠ some a) : (List.replicate n a ++ l).dropWhile (· == a) = l := by
  rw [List.dropWhile_append_of_pos (by simp)]
  cases l <;> simp_all

theorem recode_eq (hroom : Suffices base factor room) (hbase : 1 < base) (hfactor : 1 < factor)
    (h : Below factor ds) :
    recode base factor room ds = List.replicate (ds.takeWhile (· == 0)).length 0 ++
      (Nat.digits base (value factor (ds.dropWhile (· == 0)))).reverse :=
  congrArg _ (significant_convert hroom hbase hfactor (below_dropWhile h))

theorem below_recode (hroom : Suffices base factor room) (hbase : 1 < base) (hfactor : 1 < factor)
    (h : Below factor ds) : Below base (recode base factor room ds) := by
  rw [recode_eq hroom hbase hfactor h, below_append]
  constructor
  · intro d hd
    rw [List.eq_of_mem_replicate hd]
    omega
  · intro d hd
    exact Nat.digits_lt_base hbase (List.mem_reverse.1 hd)

theorem recode_recode (hroom : Suffices base factor room) (hroom' : Suffices factor base room')
    (hbase : 1 < base) (hfactor : 1 < factor) (h : Below factor ds) :
    recode factor base room' (recode base factor room ds) = ds := by
  have hbelow := below_recode hroom hbase hfactor h
  have hhead := head?_digits base (value factor (ds.dropWhile (· == 0)))
  rw [recode_eq hroom' hfactor hbase hbelow, recode_eq hroom hbase hfactor h,
    takeWhile_replicate_append _ hhead, dropWhile_replicate_append _ hhead, List.length_replicate,
    value_digits, digits_value hfactor (below_dropWhile h) (head?_dropWhile_zero ds),
    ← takeWhile_zero, List.takeWhile_append_dropWhile]

/-! ### Digits as characters -/

theorem digitValue?_digit (h : v < 58) : digitValue? (digit v) = some v := by
  revert v
  decide

theorem digit_of_digitValue? (h : digitValue? c = some v) : v < 58 ∧ digit v = c := by
  obtain ⟨hv, hc, -⟩ := List.idxOf?_eq_some_iff.1 h
  refine ⟨hv, ?_⟩
  rw [digit, List.getD_eq_getElem _ _ hv]
  exact hc

theorem digit_eq_one_iff (h : v < 58) : digit v = '1'.toUInt8 ↔ v = 0 := by
  revert v
  decide

theorem mapM_digitValue?_eq_some_iff :
    s.mapM digitValue? = some vs ↔ Below 58 vs ∧ s = vs.map digit := by
  induction s generalizing vs with
  | nil => cases vs <;> simp [Below]
  | cons c s ih =>
    simp only [List.mapM_cons, Option.bind_eq_bind, Option.bind_eq_some_iff, Option.pure_def,
      Option.some.injEq, ih]
    constructor
    · rintro ⟨v, hv, vs, ⟨hvs, rfl⟩, rfl⟩
      obtain ⟨hlt, rfl⟩ := digit_of_digitValue? hv
      exact ⟨List.forall_mem_cons.2 ⟨hlt, hvs⟩, rfl⟩
    · rintro ⟨hbelow, heq⟩
      cases vs with
      | nil => simp at heq
      | cons v vs =>
        obtain ⟨hv, hvs⟩ := List.forall_mem_cons.1 hbelow
        obtain ⟨rfl, rfl⟩ := List.cons.inj heq
        exact ⟨v, digitValue?_digit hv, vs, ⟨hvs, rfl⟩, rfl⟩

theorem isBase58_append (s t : Bytes) : isBase58 (s ++ t) = (isBase58 s && isBase58 t) :=
  List.all_append

theorem isBase58_map_digit (h : Below 58 vs) : isBase58 (vs.map digit) = true := by
  simp only [isBase58, List.all_map, List.all_eq_true, Function.comp_apply]
  intro v hv
  rw [digitValue?_digit (h v hv)]
  rfl

theorem isBase58_iff : isBase58 s = true ↔ ∃ vs, Below 58 vs ∧ s = vs.map digit := by
  constructor
  · intro h
    induction s with
    | nil => exact ⟨[], by simp [Below], rfl⟩
    | cons c s ih =>
      simp only [isBase58, List.all_cons, Bool.and_eq_true] at h
      obtain ⟨v, hv⟩ := Option.isSome_iff_exists.1 h.1
      obtain ⟨vs, hvs, rfl⟩ := ih h.2
      obtain ⟨hlt, rfl⟩ := digit_of_digitValue? hv
      exact ⟨v :: vs, List.forall_mem_cons.2 ⟨hlt, hvs⟩, rfl⟩
  · rintro ⟨vs, hvs, rfl⟩
    exact isBase58_map_digit hvs

/-! ### Texts and byte strings -/

theorem below_toNat (bs : Bytes) : Below 256 (bs.map UInt8.toNat) := by
  intro d hd
  obtain ⟨b, -, rfl⟩ := List.mem_map.1 hd
  exact b.toNat_lt

theorem map_ofNat_toNat (bs : Bytes) : (bs.map UInt8.toNat).map UInt8.ofNat = bs := by
  simp [List.map_map, Function.comp_def]

theorem map_toNat_ofNat (h : Below 256 ds) : (ds.map UInt8.ofNat).map UInt8.toNat = ds := by
  rw [List.map_map]
  exact (List.map_congr_left fun d hd => UInt8.toNat_ofNat_of_lt' (h d hd)).trans ds.map_id

theorem encode_eq (bs : Bytes) :
    encode bs = (recode 58 256 digitRoom (bs.map UInt8.toNat)).map digit := by
  have hzero : (fun d : Nat => d == 0) ∘ UInt8.toNat = fun b : UInt8 => b == 0 := by
    funext b
    simp [← UInt8.toNat_inj]
  simp only [encode, recode, List.takeWhile_map, List.dropWhile_map, hzero, List.length_map,
    List.map_append, List.map_replicate]
  rfl

theorem decode?_map_digit (h : Below 58 vs) :
    decode? (vs.map digit) = some ((recode 256 58 byteRoom vs).map UInt8.ofNat) := by
  have hrest := below_dropWhile h
  have hsplit : vs.map digit = List.replicate (vs.takeWhile (· == 0)).length '1'.toUInt8 ++
      (vs.dropWhile (· == 0)).map digit := by
    conv_lhs => rw [← List.takeWhile_append_dropWhile (p := (· == 0)) (l := vs), takeWhile_zero,
      List.map_append, List.map_replicate]
    rfl
  have hhead : ((vs.dropWhile (· == 0)).map digit).head? ≠ some '1'.toUInt8 := by
    have hzero := head?_dropWhile_zero vs
    cases hds : vs.dropWhile (· == 0) with
    | nil => simp
    | cons d ds =>
      rw [hds] at hrest hzero
      simpa [digit_eq_one_iff (hrest d List.mem_cons_self)] using hzero
  have hvalues := mapM_digitValue?_eq_some_iff.2 ⟨hrest, rfl⟩
  rw [decode?, hsplit, takeWhile_replicate_append _ hhead, dropWhile_replicate_append _ hhead,
    hvalues]
  simp [recode]

theorem isBase58_of_decode? (h : decode? s = some bs) : isBase58 s = true := by
  obtain ⟨vs, hvs, -⟩ := Option.bind_eq_some_iff.1 h
  obtain ⟨hbelow, hrest⟩ := mapM_digitValue?_eq_some_iff.1 hvs
  have hones : isBase58 (s.takeWhile (· == '1'.toUInt8)) = true := by
    refine List.all_eq_true.2 fun c hc => ?_
    obtain rfl : c = '1'.toUInt8 := by simpa using List.mem_takeWhile_imp hc
    decide
  rw [← List.takeWhile_append_dropWhile (p := (· == '1'.toUInt8)) (l := s), isBase58_append, hones,
    hrest, isBase58_map_digit hbelow]
  rfl

theorem decode?_encode (bs : Bytes) : decode? (encode bs) = some bs := by
  have hbelow := below_recode suffices_digitRoom (by decide) (by decide) (below_toNat bs)
  rw [encode_eq, decode?_map_digit hbelow, recode_recode suffices_digitRoom suffices_byteRoom
    (by decide) (by decide) (below_toNat bs), map_ofNat_toNat]

theorem encode_of_decode? (h : decode? s = some bs) : encode bs = s := by
  obtain ⟨vs, hvs, rfl⟩ := isBase58_iff.1 (isBase58_of_decode? h)
  rw [decode?_map_digit hvs, Option.some.injEq] at h
  have hbelow := below_recode suffices_byteRoom (by decide) (by decide) hvs
  rw [← h, encode_eq, map_toNat_ofNat hbelow, recode_recode suffices_byteRoom suffices_digitRoom
    (by decide) (by decide) hvs]

theorem isSome_decode? (s : Bytes) : (decode? s).isSome = isBase58 s := by
  rw [Bool.eq_iff_iff]
  constructor
  · intro h
    obtain ⟨bs, hbs⟩ := Option.isSome_iff_exists.1 h
    exact isBase58_of_decode? hbs
  · intro h
    obtain ⟨vs, hvs, rfl⟩ := isBase58_iff.1 h
    rw [decode?_map_digit hvs]
    rfl

theorem length_encode_le (bs : Bytes) :
    (encode bs).length ≤ bs.length + digitRoom bs.length := by
  have hzeros := (List.takeWhile_sublist (· == 0) (l := bs)).length_le
  have hrest := (List.dropWhile_sublist (· == 0) (l := bs)).length_le
  have hdigits : ∀ ds : List Nat, (significant ds).length ≤ ds.length := fun ds =>
    ((List.dropWhile_sublist _).length_le).trans ds.length_reverse.le
  have hle := hdigits (convert 58 256 (digitRoom (bs.dropWhile (· == 0)).length)
    ((bs.dropWhile (· == 0)).map UInt8.toNat))
  rw [length_convert] at hle
  simp only [encode, List.length_append, List.length_replicate, List.length_map]
  unfold digitRoom at *
  omega

/-! ### Room in machine words -/

theorem toNat_wordRoom {n a b : UInt64} (h : n.toNat * a.toNat < 2 ^ 64)
    (hb : 1 < b.toNat) : (n * a / b + 1).toNat = n.toNat * a.toNat / b.toNat + 1 := by
  have hle : n.toNat * a.toNat / b.toNat ≤ n.toNat * a.toNat / 2 :=
    Nat.div_le_div_left hb (by decide)
  rw [UInt64.toNat_add, UInt64.toNat_div, UInt64.toNat_mul, Nat.mod_eq_of_lt h]
  exact Nat.mod_eq_of_lt (by simp; omega)

/-- Byte strings and Base58 texts correspond one to one. No step of either conversion carries
anything out of its buffer, whose size does not wrap. -/
theorem bytes_correspond_to_texts :
    (∀ bs : Bytes, decode? (encode bs) = some bs) ∧
    (∀ s : Bytes, (decode? s).isSome = isBase58 s) ∧
    (∀ s bs : Bytes, decode? s = some bs → encode bs = s) ∧
    Lossless 58 256 digitRoom ∧ Lossless 256 58 byteRoom ∧
    (∀ n : UInt64, n.toNat < 2 ^ 56 → (n * 138 / 100 + 1).toNat = digitRoom n.toNat) ∧
    (∀ n : UInt64, n.toNat < 2 ^ 54 → (n * 733 / 1000 + 1).toNat = byteRoom n.toNat) := by
  refine ⟨decode?_encode, isSome_decode?, fun s bs => encode_of_decode?,
    suffices_digitRoom.lossless (by decide), suffices_byteRoom.lossless (by decide), ?_, ?_⟩
  · intro n hn
    exact toNat_wordRoom (a := 138) (b := 100) (by simp; omega) (by decide)
  · intro n hn
    exact toNat_wordRoom (a := 733) (b := 1000) (by simp; omega) (by decide)

/-- A key with a leading zero, and bytes and digits that fill their buffers. -/
theorem bytes_correspond_to_texts_fullBuffers :
    decode? "1LUv" = some [0, 255, 255] ∧ encode [0, 255, 255] = "1LUv" ∧
    Below 256 ([255] ++ [255]) ∧ (sweeps 58 256 (digitRoom 2) [255, 255]).used = digitRoom 2 ∧
      (mulAdd 58 256 (convert 58 256 (digitRoom 2) [255]) 255).2 = 0 ∧
      (sweeps 58 256 (digitRoom 2) [255, 255]).carry = 0 ∧
    Below 58 ([57, 57] ++ [57]) ∧ (sweeps 256 58 (byteRoom 3) [57, 57, 57]).used = byteRoom 3 ∧
      (mulAdd 256 58 (convert 256 58 (byteRoom 3) [57, 57]) 57).2 = 0 ∧
      (sweeps 256 58 (byteRoom 3) [57, 57, 57]).carry = 0 ∧
    (44 : UInt64).toNat < 2 ^ 54 ∧ (44 * 138 / 100 + 1 : UInt64).toNat = digitRoom 44 ∧
      (44 * 733 / 1000 + 1 : UInt64).toNat = byteRoom 44 := by
  obtain ⟨-, -, htext, hbytes, hdigits, hdigitRoom, hbyteRoom⟩ := bytes_correspond_to_texts
  have hdecoded : decode? "1LUv" = some [0, 255, 255] := by decide
  have hbelow : Below 256 ([255] ++ [255]) := by decide
  have hbelow' : Below 58 ([57, 57] ++ [57]) := by decide
  have hlength : (44 : UInt64).toNat < 2 ^ 54 := by decide
  obtain ⟨hcarry, hsweep, -⟩ := hbytes 2 [255] 255 hbelow (by decide)
  obtain ⟨hcarry', hsweep', -⟩ := hdigits 3 [57, 57] 57 hbelow' (by decide)
  exact ⟨hdecoded, htext _ _ hdecoded, hbelow, by decide, hcarry, hsweep, hbelow', by decide,
    hcarry', hsweep', hlength, hdigitRoom 44 (by decide), hbyteRoom 44 hlength⟩

end StakeQuorum.Base58
