import StakeQuorum.Bytes.LittleEndian
import StakeQuorum.Codec.Field

/-! # What readers make of written fields

A reader reads a field if it takes exactly the bytes of the field from any input that starts with
them, and refuses a field if it fails on every such input. Both properties pass through sequences
of readers. A byte string is read back unless it is longer than the largest size.
-/

namespace StakeQuorum

namespace Reader

variable {α β : Type} {r : Reader α} {f : α → Reader β} {bs bs' s rest : Bytes} {a : α} {b : β}

/-- The reader takes exactly these bytes from every input that starts with them. -/
def Reads (r : Reader α) (bs : Bytes) (a : α) : Prop := ∀ rest, r (bs ++ rest) = (.ok a, rest)

/-- The reader fails on every input that starts with these bytes. -/
def Refuses (r : Reader α) (bs : Bytes) : Prop :=
  ∀ rest, ∃ e left, r (bs ++ rest) = (.error e, left)

theorem reads_pure (a : α) : Reads (pure a : Reader α) [] a := fun _ => rfl

theorem refuses_fail (e : ReadError) : Refuses (fail e : Reader α) [] := fun rest => ⟨e, rest, rfl⟩

theorem Reads.bind (h : Reads r bs a) (h' : Reads (f a) bs' b) : Reads (r >>= f) (bs ++ bs') b := by
  intro rest
  rw [List.append_assoc, bind_ok f (h _)]
  exact h' rest

theorem Reads.bind_nil (h : Reads r bs a) (h' : Reads (f a) [] b) : Reads (r >>= f) bs b := by
  simpa using h.bind h'

theorem Reads.map (g : α → β) (h : Reads r bs a) : Reads (r >>= fun x => pure (g x)) bs (g a) :=
  h.bind_nil (reads_pure (g a))

theorem Reads.refuses_bind (h : Reads r bs a) (h' : Refuses (f a) bs') :
    Refuses (r >>= f) (bs ++ bs') := by
  intro rest
  obtain ⟨e, left, he⟩ := h' rest
  exact ⟨e, left, by rw [List.append_assoc, bind_ok f (h _), he]⟩

theorem Reads.refuses_bind_nil (h : Reads r bs a) (h' : Refuses (f a) []) :
    Refuses (r >>= f) bs := by
  simpa using h.refuses_bind h'

theorem Refuses.bind (h : Refuses r bs) (f : α → Reader β) (bs' : Bytes) :
    Refuses (r >>= f) (bs ++ bs') := by
  intro rest
  obtain ⟨e, left, he⟩ := h (bs' ++ rest)
  exact ⟨e, left, by rw [List.append_assoc, bind_error f he]⟩

theorem Refuses.bind_nil (h : Refuses r bs) (f : α → Reader β) : Refuses (r >>= f) bs := by
  simpa using h.bind f []

theorem Reads.decode? (h : Reads r bs a) : r.decode? bs = some a := by
  rw [decode?_eq_some_iff]
  simpa using h []

theorem Refuses.decode? (h : Refuses r bs) : r.decode? bs = none := by
  obtain ⟨e, left, he⟩ := h []
  rw [List.append_nil] at he
  simp [Reader.decode?, he]

theorem bind_eq_ok_iff : (r >>= f) s = (.ok b, rest) ↔
    ∃ a mid, r s = (.ok a, mid) ∧ f a mid = (.ok b, rest) := by
  constructor
  · intro h
    rw [bind_run] at h
    split at h
    · rename_i a mid hr
      exact ⟨a, mid, hr, h⟩
    · simp at h
  · rintro ⟨a, mid, hr, hf⟩
    rw [bind_ok f hr, hf]

/-! ### Numbers and blocks of bytes -/

theorem reads_take (bs : Bytes) : Reads (take bs.length) bs bs := take_append bs

theorem eq_of_take {n : Nat} (h : take n s = (.ok bs, rest)) : s = bs ++ rest ∧ bs.length = n := by
  unfold take at h
  split at h
  · rename_i hn
    simp only [Prod.mk.injEq, Except.ok.injEq] at h
    obtain ⟨rfl, rfl⟩ := h
    exact ⟨(List.take_append_drop n s).symm, List.length_take_of_le hn⟩
  · simp at h

theorem reads_number (k n : Nat) : Reads (number k) (Bytes.littleEndian k n) (n % 256 ^ k) := by
  have h := (reads_take (Bytes.littleEndian k n)).map Bytes.ofLittleEndian
  rw [Bytes.length_littleEndian, Bytes.ofLittleEndian_littleEndian] at h
  exact h

theorem reads_word (ofNat : Nat → α) {k n : Nat} (h : n < 256 ^ k) :
    Reads (number k >>= fun n => pure (ofNat n)) (Bytes.littleEndian k n) (ofNat n) := by
  have hr := (reads_number k n).map ofNat
  rwa [Nat.mod_eq_of_lt h] at hr

theorem reads_u8 (v : UInt8) : Reads u8 (Field.encode (.u8 v)) v := by
  have h := reads_word UInt8.ofNat (k := 1) v.toNat_lt
  rwa [UInt8.ofNat_toNat] at h

theorem reads_u16 (v : UInt16) : Reads u16 (Field.encode (.u16 v)) v := by
  have h := reads_word UInt16.ofNat (k := 2) v.toNat_lt
  rwa [UInt16.ofNat_toNat] at h

theorem reads_u32 (v : UInt32) : Reads u32 (Field.encode (.u32 v)) v := by
  have h := reads_word UInt32.ofNat (k := 4) v.toNat_lt
  rwa [UInt32.ofNat_toNat] at h

theorem reads_u64 (v : UInt64) : Reads u64 (Field.encode (.u64 v)) v := by
  have h := reads_word UInt64.ofNat (k := 8) v.toNat_lt
  rwa [UInt64.ofNat_toNat] at h

theorem reads_i64 (v : Int64) : Reads i64 (Field.encode (.i64 v)) v := by
  have h := (reads_u64 v.toUInt64).map UInt64.toInt64
  rw [Int64.toInt64_toUInt64] at h
  exact h

theorem reads_block {n : Nat} (b : FixedBytes n) : Reads (block n) (Field.encode (.block b)) b := by
  have h := (reads_take b.bytes).map (FixedBytes.pad n)
  rw [FixedBytes.length_bytes, FixedBytes.pad_bytes] at h
  exact h

/-! What a reader of numbers has taken is the written form of the number. -/

theorem eq_of_number {k n : Nat} (h : number k s = (.ok n, rest)) :
    s = Bytes.littleEndian k n ++ rest ∧ n < 256 ^ k := by
  obtain ⟨bs, mid, ht, h⟩ := bind_eq_ok_iff.1 h
  simp only [pure_run, Prod.mk.injEq, Except.ok.injEq] at h
  obtain ⟨rfl, rfl⟩ := h
  obtain ⟨hs, hl⟩ := eq_of_take ht
  subst hl
  rw [Bytes.littleEndian_ofLittleEndian]
  exact ⟨hs, Bytes.ofLittleEndian_lt bs⟩

theorem eq_of_u8 {v : UInt8} (h : u8 s = (.ok v, rest)) : s = Field.encode (.u8 v) ++ rest := by
  obtain ⟨n, mid, hn, h⟩ := bind_eq_ok_iff.1 h
  simp only [pure_run, Prod.mk.injEq, Except.ok.injEq] at h
  obtain ⟨rfl, rfl⟩ := h
  obtain ⟨hs, hlt⟩ := eq_of_number hn
  have hv : n % 2 ^ 8 = n := Nat.mod_eq_of_lt (by omega)
  rw [Field.encode, UInt8.toNat_ofNat', hv, hs]

theorem eq_of_u64 {v : UInt64} (h : u64 s = (.ok v, rest)) : s = Field.encode (.u64 v) ++ rest := by
  obtain ⟨n, mid, hn, h⟩ := bind_eq_ok_iff.1 h
  simp only [pure_run, Prod.mk.injEq, Except.ok.injEq] at h
  obtain ⟨rfl, rfl⟩ := h
  obtain ⟨hs, hlt⟩ := eq_of_number hn
  have hv : n % 2 ^ 64 = n := Nat.mod_eq_of_lt (by omega)
  rw [Field.encode, UInt64.toNat_ofNat', hv, hs]

theorem eq_of_i64 {v : Int64} (h : i64 s = (.ok v, rest)) : s = Field.encode (.i64 v) ++ rest := by
  obtain ⟨n, mid, hn, h⟩ := bind_eq_ok_iff.1 h
  simp only [pure_run, Prod.mk.injEq, Except.ok.injEq] at h
  obtain ⟨rfl, rfl⟩ := h
  rw [Field.encode, UInt64.toUInt64_toInt64]
  exact eq_of_u64 hn

theorem eq_of_block {n : Nat} {b : FixedBytes n} (h : block n s = (.ok b, rest)) :
    s = Field.encode (.block b) ++ rest := by
  obtain ⟨bs, mid, ht, h⟩ := bind_eq_ok_iff.1 h
  simp only [pure_run, Prod.mk.injEq, Except.ok.injEq] at h
  obtain ⟨rfl, rfl⟩ := h
  obtain ⟨rfl, rfl⟩ := eq_of_take ht
  rw [Field.encode, FixedBytes.pad_bytes ⟨bs, rfl⟩]

/-! ### Records with a version -/

section Versioned

variable {v : UInt8} {body : Reader (Option α)} {x : Option α}

/-- What stands behind a byte for the version; nothing is read of another version. -/
def versioned (v : UInt8) (body : Reader (Option α)) : Reader (Option α) := do
  if (← u8) ≠ v then return none
  body

theorem Reads.versioned (v : UInt8) (h : Reads body bs x) :
    Reads (versioned v body) (Field.encode (.u8 v) ++ bs) x := by
  refine (reads_u8 v).bind ?_
  rwa [if_neg (by simp)]

theorem Refuses.versioned (v : UInt8) (h : Refuses body bs) :
    Refuses (versioned v body) (Field.encode (.u8 v) ++ bs) := by
  refine (reads_u8 v).refuses_bind ?_
  rwa [if_neg (by simp)]

theorem eq_of_versioned (h : versioned v body s = (.ok (some a), rest)) :
    ∃ mid, s = Field.encode (.u8 v) ++ mid ∧ body mid = (.ok (some a), rest) := by
  obtain ⟨w, mid, hw, hbody⟩ := bind_eq_ok_iff.1 h
  split at hbody
  · simp at hbody
  · rename_i hversion
    obtain rfl : w = v := not_not.1 hversion
    exact ⟨mid, eq_of_u8 hw, hbody⟩

end Versioned

end Reader

namespace CompactSize

open Reader

variable {k n least marker : Nat} {s rest bs : Bytes}

theorem reads_marker (h : marker < 256) :
    Reads (Reader.number 1) (Bytes.littleEndian 1 marker) marker := by
  have hr := reads_number 1 marker
  rwa [Nat.mod_eq_of_lt (by omega)] at hr

theorem reads_wide (h : least ≤ n % 256 ^ k) :
    Reads (wide k least) (Bytes.littleEndian k n) (n % 256 ^ k) := by
  refine (reads_number k n).bind_nil ?_
  rw [if_neg (Nat.not_lt.2 h)]
  exact reads_pure _

theorem reads_wide_of_lt (h : least ≤ n) (hn : n < 256 ^ k) :
    Reads (wide k least) (Bytes.littleEndian k n) n := by
  have hm := Nat.mod_eq_of_lt hn
  have hr := @reads_wide k n least (by rwa [hm])
  rwa [hm] at hr

theorem refuses_wide (h : n % 256 ^ k < least) :
    Refuses (wide k least) (Bytes.littleEndian k n) := by
  refine (reads_number k n).refuses_bind_nil ?_
  rw [if_pos h]
  exact refuses_fail _

theorem encode_eq_marker (h : n < 256 ^ 8) : ∃ marker payload, marker < 256 ∧
    encode n = Bytes.littleEndian 1 marker ++ payload ∧ Reads (afterMarker marker) payload n := by
  unfold encode
  split
  · rename_i hn
    refine ⟨n, [], by omega, rfl, ?_⟩
    rw [afterMarker, if_pos hn]
    exact reads_pure n
  split
  · exact ⟨253, Bytes.littleEndian 2 n, by decide, rfl, reads_wide_of_lt (by omega) (by omega)⟩
  split
  · exact ⟨254, Bytes.littleEndian 4 n, by decide, rfl, reads_wide_of_lt (by omega) (by omega)⟩
  · exact ⟨255, Bytes.littleEndian 8 n, by decide, rfl, reads_wide_of_lt (by omega) h⟩

theorem reads_read (h : n ≤ maxSize) : Reads read (encode n) n := by
  have hn : n < 256 ^ 8 := Nat.lt_of_le_of_lt h (by decide)
  obtain ⟨marker, payload, hm, he, hp⟩ := encode_eq_marker hn
  rw [he]
  refine (reads_marker hm).bind (hp.bind_nil ?_)
  rw [if_neg (Nat.not_lt.2 h)]
  exact reads_pure n

/-- A size above the largest is read to its end before it is refused. -/
theorem read_of_lt (h : maxSize < n) (hn : n < 256 ^ 8) (rest : Bytes) :
    read (encode n ++ rest) = (.error .sizeTooLarge, rest) := by
  obtain ⟨marker, payload, hm, he, hp⟩ := encode_eq_marker hn
  rw [he, List.append_assoc, read, bind_ok _ (reads_marker hm _), bind_ok _ (hp rest), if_pos h]
  rfl

theorem refuses_read (h : maxSize < n) : Refuses read (encode n) := by
  by_cases hn : n < 256 ^ 8
  · exact fun rest => ⟨.sizeTooLarge, rest, read_of_lt h hn rest⟩
  · have he : encode n = Bytes.littleEndian 1 255 ++ Bytes.littleEndian 8 n := by
      simp only [encode]
      rw [if_neg (by omega), if_neg (by omega), if_neg (by omega)]
      rfl
    rw [he]
    refine (reads_number 1 255).refuses_bind ?_
    have hw : afterMarker (255 % 256 ^ 1) = wide 8 0x100000000 := rfl
    rw [hw]
    by_cases hl : n % 256 ^ 8 < 0x100000000
    · exact (refuses_wide hl).bind_nil _
    · refine (reads_wide (Nat.not_lt.1 hl)).refuses_bind_nil ?_
      rw [if_pos (by unfold maxSize; omega)]
      exact refuses_fail _

theorem eq_of_wide (h : wide k least s = (.ok n, rest)) :
    s = Bytes.littleEndian k n ++ rest ∧ least ≤ n ∧ n < 256 ^ k := by
  obtain ⟨m, mid, hm, h⟩ := bind_eq_ok_iff.1 h
  split at h
  · simp [Reader.fail] at h
  · rename_i hleast
    simp only [pure_run, Prod.mk.injEq, Except.ok.injEq] at h
    obtain ⟨rfl, rfl⟩ := h
    obtain ⟨hs, hlt⟩ := eq_of_number hm
    exact ⟨hs, Nat.not_lt.1 hleast, hlt⟩

theorem eq_of_afterMarker (hm : marker < 256)
    (h : afterMarker marker s = (.ok n, rest)) :
    Bytes.littleEndian 1 marker ++ s = encode n ++ rest := by
  unfold afterMarker at h
  unfold encode
  split at h
  · rename_i hsmall
    simp only [pure_run, Prod.mk.injEq, Except.ok.injEq] at h
    obtain ⟨rfl, rfl⟩ := h
    rw [if_pos hsmall]
    rfl
  split at h
  · rename_i hmarker
    obtain ⟨rfl, hleast, hlt⟩ := eq_of_wide h
    rw [if_neg (by omega), if_pos (by omega), hmarker]
    rfl
  split at h
  · rename_i hmarker
    obtain ⟨rfl, hleast, hlt⟩ := eq_of_wide h
    rw [if_neg (by omega), if_neg (by omega), if_pos (by omega), hmarker]
    rfl
  · obtain ⟨rfl, hleast, -⟩ := eq_of_wide h
    obtain rfl : marker = 255 := by omega
    rw [if_neg (by omega), if_neg (by omega), if_neg (by omega)]
    rfl

/-- A size that is read is written in its shortest form. -/
theorem eq_of_read (h : read s = (.ok n, rest)) : s = encode n ++ rest ∧ n ≤ maxSize := by
  obtain ⟨marker, mid, hmarker, h⟩ := bind_eq_ok_iff.1 h
  obtain ⟨m, left, hm, h⟩ := bind_eq_ok_iff.1 h
  split at h
  · simp [Reader.fail] at h
  · rename_i hmax
    simp only [pure_run, Prod.mk.injEq, Except.ok.injEq] at h
    obtain ⟨rfl, rfl⟩ := h
    obtain ⟨rfl, hlt⟩ := eq_of_number hmarker
    exact ⟨eq_of_afterMarker (by omega) hm, Nat.not_lt.1 hmax⟩

theorem reads_readBytes (h : bs.length ≤ maxSize) : Reads readBytes (encodeBytes bs) bs := by
  intro rest
  rw [encodeBytes, List.append_assoc, readBytes, bind_ok _ (reads_read h _), bind_run]
  simp only [available, List.length_append]
  rw [if_neg (by omega)]
  exact reads_take bs rest

theorem refuses_readBytes (h : maxSize < bs.length) : Refuses readBytes (encodeBytes bs) :=
  (refuses_read h).bind _ bs

theorem eq_of_readBytes (h : readBytes s = (.ok bs, rest)) :
    s = encodeBytes bs ++ rest ∧ bs.length ≤ maxSize := by
  obtain ⟨n, mid, hn, h⟩ := bind_eq_ok_iff.1 h
  obtain ⟨left, mid', ha, h⟩ := bind_eq_ok_iff.1 h
  split at h
  · simp [Reader.fail] at h
  · obtain ⟨hs, hmax⟩ := eq_of_read hn
    obtain ⟨-, rfl⟩ := Prod.mk.inj ha
    obtain ⟨rfl, rfl⟩ := eq_of_take h
    rw [encodeBytes, List.append_assoc]
    exact ⟨hs, hmax⟩

end CompactSize

end StakeQuorum
