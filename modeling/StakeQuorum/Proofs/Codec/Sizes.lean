import StakeQuorum.Proofs.Codec.Reads

/-! # Where sizes end

The written form of a size shows where it ends, whether or not the size is too large to be read: no
form begins another. A size in a form that is longer than its shortest one is refused, so what is
read as a size has been written as it.
-/

namespace StakeQuorum

namespace Reader

variable {α : Type} {r : Reader α} {bs bs' rest rest' : Bytes} {a a' : α}

theorem Reads.unique (h : Reads r bs a) (h' : Reads r bs' a') (heq : bs ++ rest = bs' ++ rest') :
    a = a' ∧ rest = rest' := by
  have hboth := (h rest).symm.trans (heq ▸ h' rest')
  simpa only [Prod.mk.injEq, Except.ok.injEq] using hboth

end Reader

namespace CompactSize

open Reader

variable {n m : Nat} {s rest bs form payload : Bytes}

/-- A size in its shortest form, however large it is. -/
def unbounded : Reader Nat := do afterMarker (← Reader.number 1)

/-- A byte string after its length, however long it is. -/
def unboundedBytes : Reader Bytes := do Reader.take (← unbounded)

theorem reads_unbounded (h : n < 256 ^ 8) : Reads unbounded (encode n) n := by
  obtain ⟨marker, payload, hm, he, hp⟩ := encode_eq_marker h
  rw [he]
  exact (reads_marker hm).bind hp

theorem reads_unboundedBytes (h : bs.length < 256 ^ 8) :
    Reads unboundedBytes (encodeBytes bs) bs :=
  (reads_unbounded h).bind (reads_take bs)

/-! ### One form for every size -/

theorem read_eq_ok_iff : read s = (.ok n, rest) ↔ n ≤ maxSize ∧ s = encode n ++ rest := by
  constructor
  · intro h
    exact ⟨(eq_of_read h).2, (eq_of_read h).1⟩
  · rintro ⟨hmax, rfl⟩
    exact reads_read hmax rest

theorem not_encode_prefix_of_ne (hn : n < 256 ^ 8) (hm : m < 256 ^ 8) (hne : n ≠ m) :
    ¬encode n <+: encode m := by
  rintro ⟨rest, hrest⟩
  have heq : encode n ++ rest = encode m ++ [] := by rw [List.append_nil, hrest]
  exact hne ((reads_unbounded hn).unique (reads_unbounded hm) heq).1

/-- A size up to the largest is read exactly from its written form, and what follows is left. Larger
words are refused as too large. Whatever has been taken for a size is its written form, and no word
is written as the beginning of another. -/
theorem sizes_correspond_to_forms :
    (∀ (s rest : Bytes) (n : Nat), read s = (.ok n, rest) ↔ n ≤ maxSize ∧ s = encode n ++ rest) ∧
    (∀ (n : UInt64) (rest : Bytes), maxSize < n.toNat → ∃ e : ReadError,
      read (encode n.toNat ++ rest) = (.error e, rest) ∧
      e.message = "ReadCompactSize(): size too large") ∧
    (∀ (form rest : Bytes) (n : Nat), read (form ++ rest) = (.ok n, rest) → form = encode n) ∧
    (∀ n m : UInt64, n ≠ m → ¬encode n.toNat <+: encode m.toNat) := by
  refine ⟨fun s rest n => read_eq_ok_iff, fun n rest h => ?_, fun form rest n h => ?_,
    fun n m hne => ?_⟩
  · exact ⟨.sizeTooLarge, read_of_lt h n.toNat_lt rest, rfl⟩
  · exact List.append_cancel_right (read_eq_ok_iff.1 h).2
  · exact not_encode_prefix_of_ne n.toNat_lt m.toNat_lt fun h => hne (UInt64.toNat_inj.1 h)

/-- The largest size, the word after it, and two sizes whose forms differ only in the last byte. -/
theorem sizes_correspond_largest :
    read (encode maxSize ++ [7]) = (.ok maxSize, [7]) ∧
    maxSize < (0x02000001 : UInt64).toNat ∧
    (∃ e : ReadError, read (encode (0x02000001 : UInt64).toNat ++ [7]) = (.error e, [7]) ∧
      e.message = "ReadCompactSize(): size too large") ∧
    read ([253, 253, 0] ++ [7]) = (.ok 253, [7]) ∧ [253, 253, 0] = encode 253 ∧
    (253 : UInt64) ≠ 0xFFFD ∧ ¬encode (253 : UInt64).toNat <+: encode (0xFFFD : UInt64).toNat := by
  obtain ⟨hread, hlarge, hform, hbegins⟩ := sizes_correspond_to_forms
  have habove : maxSize < (0x02000001 : UInt64).toNat := by decide
  have hmarked : read ([253, 253, 0] ++ [7]) = (.ok 253, [7]) := rfl
  have hne : (253 : UInt64) ≠ 0xFFFD := by decide
  exact ⟨(hread _ _ _).2 ⟨Nat.le_refl _, rfl⟩, habove, hlarge _ _ habove, hmarked,
    hform _ _ _ hmarked, hne, hbegins _ _ hne⟩

/-! ### Longer forms -/

/-- The forms of a size: one byte, or a marker and two, four or eight bytes. -/
inductive Form (n : Nat) : Bytes → Prop
  | byte (h : n < 253) : Form n [UInt8.ofNat n]
  | two (h : n < 256 ^ 2) : Form n (253 :: Bytes.littleEndian 2 n)
  | four (h : n < 256 ^ 4) : Form n (254 :: Bytes.littleEndian 4 n)
  | eight (h : n < 256 ^ 8) : Form n (255 :: Bytes.littleEndian 8 n)

theorem refuses_read_of_marker (marker : Nat) (hm : marker < 256)
    (h : Refuses (afterMarker marker) payload) :
    Refuses read (Bytes.littleEndian 1 marker ++ payload) :=
  (reads_marker hm).refuses_bind (h.bind_nil _)

theorem refuses_readBytes_of_read (h : Refuses read form) : Refuses readBytes form := h.bind_nil _

/-- A form that a shorter one could stand for is refused. -/
theorem Form.refuses (h : Form n form) (hlong : form ≠ encode n) : Refuses read form := by
  unfold encode at hlong
  cases h with
  | byte h => exact absurd (if_pos h).symm hlong
  | two h =>
    have hless : n < 253 := by
      by_contra hge
      rw [if_neg hge, if_pos (by omega)] at hlong
      exact hlong rfl
    refine refuses_read_of_marker 253 (by decide) (refuses_wide ?_)
    omega
  | four h =>
    have hless : n < 0x10000 := by
      by_contra hge
      rw [if_neg (by omega), if_neg (by omega), if_pos (by omega)] at hlong
      exact hlong rfl
    refine refuses_read_of_marker 254 (by decide) (refuses_wide ?_)
    omega
  | eight h =>
    have hless : n < 0x100000000 := by
      by_contra hge
      rw [if_neg (by omega), if_neg (by omega), if_neg (by omega)] at hlong
      exact hlong rfl
    refine refuses_read_of_marker 255 (by decide) (refuses_wide ?_)
    omega

end CompactSize

end StakeQuorum
