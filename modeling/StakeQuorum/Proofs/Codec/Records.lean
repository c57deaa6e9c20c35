import StakeQuorum.Account.Record
import StakeQuorum.Proofs.Codec.Reads
import StakeQuorum.Stake.Record

/-! # Records that are read back

An account is read back from its record exactly when its owner and its data are not longer than the
largest size. A stake is read back from its sixty-two bytes exactly when its owner is an external
address. Whatever is read as one of them is its written form.
-/

namespace StakeQuorum

open Reader

namespace Account

variable {key record : Bytes} {a : Account}

/-- The owner and the data are not too long to be read back. -/
def Fits (a : Account) : Prop :=
  a.owner.length ≤ CompactSize.maxSize ∧ a.data.length ≤ CompactSize.maxSize

instance (a : Account) : Decidable a.Fits := inferInstanceAs (Decidable (_ ∧ _))

theorem encode_eq (a : Account) : a.encode =
    Field.encode (.u8 recordVersion) ++ (Field.encode (.u64 a.lamports) ++
      (CompactSize.encodeBytes a.owner ++ CompactSize.encodeBytes a.data)) := by
  simp [encode, fields, Field.encodeAll, Field.encode]

theorem decode?_encode (h : a.Fits) : decode? key a.encode = some { a with key } := by
  have hr : Reads (reader key) a.encode (some { a with key }) := by
    rw [encode_eq]
    refine Reads.versioned recordVersion ?_
    refine (reads_u64 a.lamports).bind ((CompactSize.reads_readBytes h.1).bind ?_)
    exact (CompactSize.reads_readBytes h.2).map _
  rw [decode?, hr.decode?, Option.join_some]

theorem decode?_encode_of_not_fits (h : ¬ a.Fits) : decode? key a.encode = none := by
  have hr : Refuses (reader key) a.encode := by
    rw [encode_eq]
    refine Refuses.versioned recordVersion ((reads_u64 a.lamports).refuses_bind ?_)
    by_cases ho : a.owner.length ≤ CompactSize.maxSize
    · have hd : CompactSize.maxSize < a.data.length := Nat.not_le.1 fun hd => h ⟨ho, hd⟩
      refine (CompactSize.reads_readBytes ho).refuses_bind ?_
      exact (CompactSize.refuses_readBytes hd).bind_nil _
    · exact (CompactSize.refuses_readBytes (Nat.not_le.1 ho)).bind _ _
  rw [decode?, hr.decode?, Option.join_none]

/-- Whatever is read as an account is the record of the account. -/
theorem eq_encode_of_decode? (h : decode? key record = some a) :
    record = a.encode ∧ a.key = key ∧ a.Fits := by
  rw [decode?, Option.join_eq_some_iff, decode?_eq_some_iff] at h
  obtain ⟨_, rfl, hbody⟩ := eq_of_versioned h
  obtain ⟨lamports, _, hl, h⟩ := Reader.bind_eq_ok_iff.1 hbody
  obtain ⟨owner, _, ho, h⟩ := Reader.bind_eq_ok_iff.1 h
  obtain ⟨data, _, hd, h⟩ := Reader.bind_eq_ok_iff.1 h
  simp only [pure_run, Prod.mk.injEq, Except.ok.injEq, Option.some.injEq] at h
  obtain ⟨rfl, rfl⟩ := h
  obtain ⟨rfl, howner⟩ := CompactSize.eq_of_readBytes ho
  obtain ⟨rfl, hdata⟩ := CompactSize.eq_of_readBytes hd
  refine ⟨?_, rfl, howner, hdata⟩
  rw [eq_of_u64 hl, encode_eq, List.append_nil]

theorem decode?_eq_some (h : decode? key record = some a) : a.key = key ∧ a.Fits :=
  (eq_encode_of_decode? h).2

theorem decode?_eq_some_iff :
    decode? key record = some a ↔ record = a.encode ∧ a.key = key ∧ a.Fits := by
  constructor
  · exact eq_encode_of_decode?
  · rintro ⟨rfl, rfl, hf⟩
    exact decode?_encode hf

end Account

namespace Stake.Record

variable {data : Bytes} {r r' : Record}

theorem length_of_isExternal {s : Bytes} (h : Address.isExternal s = true) :
    s.length = Address.externalLength := by
  simp only [Address.isExternal, Bool.and_eq_true, beq_iff_eq] at h
  exact h.1

theorem ne_nil_of_isExternal {s : Bytes} (h : Address.isExternal s = true) : s ≠ [] :=
  List.ne_nil_of_length_eq_add_one (length_of_isExternal h)

theorem length_layout (h : Address.isExternal r.owner = true) : r.layout.length = size := by
  simp only [layout, Field.encode, List.length_append, Bytes.length_littleEndian,
    length_of_isExternal h, size]

theorem decode?_layout (h : Address.isExternal r.owner = true) : decode? r.layout = some r := by
  have hr : Reads reader r.layout (some r) := by
    have hl : r.layout = Field.encode (.u8 version) ++ (r.owner ++
        (Field.encode (.u64 r.amount) ++ (Field.encode (.i64 r.lockedUntil) ++
          Field.encode (.u8 (if r.active then 1 else 0))))) := by
      simp [layout]
    rw [hl]
    refine Reads.versioned version ?_
    rw [← length_of_isExternal h]
    refine (reads_take r.owner).bind ((reads_u64 r.amount).bind ((reads_i64 r.lockedUntil).bind ?_))
    refine (reads_u8 _).bind_nil ?_
    obtain ⟨owner, amount, lockedUntil, active⟩ := r
    cases active <;> simpa [h] using reads_pure _
  rw [decode?, hr.decode?, Option.join_some]

theorem eq_layout_of_decode? (h : decode? data = some r) :
    data = r.layout ∧ Address.isExternal r.owner = true := by
  rw [decode?, Option.join_eq_some_iff, decode?_eq_some_iff] at h
  obtain ⟨_, rfl, hbody⟩ := eq_of_versioned h
  obtain ⟨owner, _, ho, h⟩ := Reader.bind_eq_ok_iff.1 hbody
  obtain ⟨amount, _, ha, h⟩ := Reader.bind_eq_ok_iff.1 h
  obtain ⟨lockedUntil, _, hl, h⟩ := Reader.bind_eq_ok_iff.1 h
  obtain ⟨flag, _, hf, h⟩ := Reader.bind_eq_ok_iff.1 h
  split at h
  · simp at h
  rename_i hok
  simp only [pure_run, Prod.mk.injEq, Except.ok.injEq, Option.some.injEq] at h
  obtain ⟨rfl, rfl⟩ := h
  obtain ⟨hext, hflag⟩ : Address.isExternal owner = true ∧ flag ≤ 1 := by simpa using hok
  have hbit : (if (flag == 1) = true then 1 else 0) = flag := by
    have hle : flag.toNat ≤ 1 := UInt8.le_iff_toNat_le.1 hflag
    by_cases h1 : flag = 1
    · simp [h1]
    · have h0 : flag.toNat ≠ 1 := fun h => h1 (UInt8.toNat_inj.1 h)
      have hz : flag = 0 := UInt8.toNat_inj.1 (show flag.toNat = 0 by omega)
      simp [hz]
  refine ⟨?_, hext⟩
  rw [(eq_of_take ho).1, eq_of_u64 ha, eq_of_i64 hl, eq_of_u8 hf, layout]
  simp only [hbit, List.append_assoc, List.append_nil]

theorem isExternal_of_decode? (h : decode? data = some r) : Address.isExternal r.owner = true :=
  (eq_layout_of_decode? h).2

theorem length_of_decode? (h : decode? data = some r) : data.length = size := by
  obtain ⟨rfl, hext⟩ := eq_layout_of_decode? h
  exact length_layout hext

theorem encode_eq_ok_iff :
    r.encode = .ok data ↔ r.owner.length = Address.externalLength ∧ data = r.layout := by
  unfold encode
  split
  · simp_all
  · simp_all [eq_comm]

theorem encode_eq_error_iff :
    r.encode = .error .badOwnerLength ↔ r.owner.length ≠ Address.externalLength := by
  unfold encode
  split <;> simp_all

theorem owner_eq_of_layout_eq (hl : r.owner.length = r'.owner.length)
    (h : r.layout = r'.layout) : r.owner = r'.owner := by
  simp only [layout, List.append_assoc] at h
  exact (List.append_inj (List.append_cancel_left h) hl).1

theorem decode?_eq_some_iff :
    decode? data = some r ↔ r.encode = .ok data ∧ Address.isExternal r.owner = true := by
  rw [encode_eq_ok_iff]
  constructor
  · intro h
    obtain ⟨hdata, hext⟩ := eq_layout_of_decode? h
    exact ⟨⟨length_of_isExternal hext, hdata⟩, hext⟩
  · rintro ⟨⟨-, rfl⟩, hext⟩
    exact decode?_layout hext

theorem decode?_layout_eq_none (hl : r.owner.length = Address.externalLength)
    (hext : Address.isExternal r.owner = false) : decode? r.layout = none := by
  rw [Option.eq_none_iff_forall_ne_some]
  intro r' h
  obtain ⟨hdata, hext'⟩ := eq_layout_of_decode? h
  have howner := owner_eq_of_layout_eq (hl.trans (length_of_isExternal hext').symm) hdata
  rw [howner, hext'] at hext
  cases hext

end Stake.Record

/-- What is read as an account or as a stake is exactly what is written for it. An account is
written in a form that is read unless its owner or its data are too long, and a stake in one that is
read if its owner, of the length of an external address, is one. -/
theorem records_correspond_to_values :
    (∀ (key : Bytes) (a : Account),
      Account.decode? key a.encode = if a.Fits then some { a with key } else none) ∧
    (∀ (key record : Bytes) (a : Account), Account.decode? key record = some a ↔
      record = a.encode ∧ a.key = key ∧ a.Fits) ∧
    (∀ r : Stake.Record, r.owner.length = Address.externalLength → ∃ data, r.encode = .ok data ∧
      Stake.Record.decode? data = if Address.isExternal r.owner then some r else none) ∧
    (∀ r : Stake.Record, r.encode = .error .badOwnerLength ↔
      r.owner.length ≠ Address.externalLength) ∧
    ∀ (data : Bytes) (r : Stake.Record), Stake.Record.decode? data = some r ↔
      r.encode = .ok data ∧ Address.isExternal r.owner = true := by
  refine ⟨?_, fun _ _ _ => Account.decode?_eq_some_iff, ?_,
    fun _ => Stake.Record.encode_eq_error_iff, fun _ _ => Stake.Record.decode?_eq_some_iff⟩
  · intro key a
    split
    · exact Account.decode?_encode ‹_›
    · exact Account.decode?_encode_of_not_fits ‹_›
  · intro r hl
    refine ⟨r.layout, Stake.Record.encode_eq_ok_iff.2 ⟨hl, rfl⟩, ?_⟩
    split
    · exact Stake.Record.decode?_layout ‹_›
    · exact Stake.Record.decode?_layout_eq_none hl (Bool.eq_false_iff.2 ‹_›)

/-- Forty-four letters are read back as an owner, and forty-four hyphens are not. -/
theorem records_correspond_twoOwners :
    let r : Stake.Record :=
      { owner := List.replicate 44 'Z'.toUInt8, amount := Amount.max, lockedUntil := -1,
        active := true }
    let r' : Stake.Record := { r with owner := List.replicate 44 '-'.toUInt8 }
    r.owner.length = Address.externalLength ∧ r'.owner.length = Address.externalLength ∧
      (∃ data, r.encode = .ok data ∧ Stake.Record.decode? data = some r) ∧
      ∃ data, r'.encode = .ok data ∧ Stake.Record.decode? data = none := by
  intro r r'
  have hl : r.owner.length = Address.externalLength := by decide
  have hl' : r'.owner.length = Address.externalLength := by decide
  exact ⟨hl, hl', records_correspond_to_values.2.2.1 r hl,
    records_correspond_to_values.2.2.1 r' hl'⟩

end StakeQuorum
