import StakeQuorum.Bytes

/-! # Maps from byte strings

Finite maps whose entries stand in strictly ascending order of their keys. Two maps with the same
entries are equal, and listing a map needs no sorting.
-/

namespace StakeQuorum

/-- Entries in strictly ascending order of their keys. -/
abbrev Ascending {β : Type} (entries : List (Bytes × β)) : Prop :=
  entries.Pairwise fun a b => a.1 < b.1

@[ext] structure ByteMap (β : Type) where
  entries : List (Bytes × β)
  ascending : Ascending entries

namespace ByteMap

variable {β γ : Type}

/-- Puts an entry in its place, instead of the one with the same key. -/
def insertEntry (k : Bytes) (v : β) : List (Bytes × β) → List (Bytes × β)
  | [] => [(k, v)]
  | e :: es =>
    if k < e.1 then (k, v) :: e :: es
    else if k = e.1 then (k, v) :: es
    else e :: insertEntry k v es

theorem mem_insertEntry {k : Bytes} {v : β} {es : List (Bytes × β)} {e : Bytes × β}
    (h : e ∈ insertEntry k v es) : e = (k, v) ∨ e ∈ es := by
  induction es with
  | nil => simp_all [insertEntry]
  | cons d ds ih =>
    unfold insertEntry at h
    split at h
    · simpa using h
    · split at h
      · simp only [List.mem_cons] at h ⊢
        exact h.imp_right .inr
      · simp only [List.mem_cons] at h ⊢
        rcases h with rfl | h
        · exact .inr (.inl rfl)
        · exact (ih h).imp_right .inr

theorem ascending_insertEntry (k : Bytes) (v : β) {es : List (Bytes × β)} (h : Ascending es) :
    Ascending (insertEntry k v es) := by
  induction es with
  | nil => exact List.pairwise_singleton _ _
  | cons d ds ih =>
    obtain ⟨hd, hds⟩ := List.pairwise_cons.1 h
    unfold insertEntry
    split
    · rename_i hk
      refine List.pairwise_cons.2 ⟨fun e he => ?_, h⟩
      rcases List.mem_cons.1 he with rfl | he
      · exact hk
      · exact List.lt_trans hk (hd e he)
    · split
      · rename_i hk
        exact List.pairwise_cons.2 ⟨fun e he => hk ▸ hd e he, hds⟩
      · rename_i hlt hne
        refine List.pairwise_cons.2 ⟨fun e he => ?_, ih hds⟩
        rcases mem_insertEntry he with rfl | he
        · exact Decidable.byContradiction fun hn =>
            hne (List.le_antisymm (List.not_lt.1 hn) (List.not_lt.1 hlt))
        · exact hd e he

def empty : ByteMap β := ⟨[], .nil⟩

instance : EmptyCollection (ByteMap β) := ⟨empty⟩

instance : Inhabited (ByteMap β) := ⟨empty⟩

instance [DecidableEq β] : DecidableEq (ByteMap β) := fun a b =>
  decidable_of_iff (a.entries = b.entries) ByteMap.ext_iff.symm

def size (m : ByteMap β) : Nat := m.entries.length

def keys (m : ByteMap β) : List Bytes := m.entries.map (·.1)

def values (m : ByteMap β) : List β := m.entries.map (·.2)

def get? (m : ByteMap β) (k : Bytes) : Option β := (m.entries.find? fun e => e.1 == k).map (·.2)

def contains (m : ByteMap β) (k : Bytes) : Bool := (m.get? k).isSome

def insert (m : ByteMap β) (k : Bytes) (v : β) : ByteMap β :=
  ⟨insertEntry k v m.entries, ascending_insertEntry k v m.ascending⟩

def erase (m : ByteMap β) (k : Bytes) : ByteMap β :=
  ⟨m.entries.filter (·.1 != k), m.ascending.filter _⟩

/-- The entries from the first key that is not less than `target`. -/
def seek (m : ByteMap β) (target : Bytes) : List (Bytes × β) :=
  m.entries.dropWhile fun e => decide (e.1 < target)

def filter (m : ByteMap β) (p : Bytes → β → Bool) : ByteMap β :=
  ⟨m.entries.filter fun e => p e.1 e.2, m.ascending.filter _⟩

def ofList (es : List (Bytes × β)) : ByteMap β := es.foldl (fun m e => m.insert e.1 e.2) empty

@[simp] theorem get?_empty (k : Bytes) : (empty : ByteMap β).get? k = none := rfl

theorem get?_insert (m : ByteMap β) (k k' : Bytes) (v : β) :
    (m.insert k v).get? k' = if k = k' then some v else m.get? k' := by
  obtain ⟨es, hes⟩ := m
  simp only [get?, insert]
  induction es with
  | nil => by_cases h : k = k' <;> simp [insertEntry, h]
  | cons d ds ih =>
    have ih := ih (List.pairwise_cons.1 hes).2
    unfold insertEntry
    split
    · by_cases h : k = k' <;> simp [h]
    · split
      · rename_i hk
        by_cases h : k = k'
        · simp [h]
        · have hd : ¬d.1 = k' := fun e => h (hk.trans e)
          simp [h, hd]
      · rename_i hlt hne
        by_cases hd : d.1 = k'
        · have h : ¬k = k' := fun h => hne (h.trans hd.symm)
          simp [hd, h]
        · simp [hd, ih]

theorem get?_erase (m : ByteMap β) (k k' : Bytes) :
    (m.erase k).get? k' = if k = k' then none else m.get? k' := by
  obtain ⟨es, hes⟩ := m
  simp only [get?, erase]
  clear hes
  induction es with
  | nil => simp
  | cons d ds ih =>
    by_cases hd : d.1 = k
    · rw [List.filter_cons_of_neg (by simpa using hd), ih]
      by_cases h : k = k'
      · simp [h]
      · have hne : ¬d.1 = k' := fun e => h (hd.symm.trans e)
        simp [h, hne]
    · rw [List.filter_cons_of_pos (by simpa using hd)]
      by_cases he : d.1 = k'
      · have h : ¬k = k' := fun h => hd (he.trans h.symm)
        simp [he, h]
      · rw [List.find?_cons_of_neg (by simpa using he), ih,
          List.find?_cons_of_neg (by simpa using he)]

end ByteMap

end StakeQuorum
