import Mathlib
import StakeQuorum.Store.Database

/-! # What a database holds

A map is known by its lookups. A sum over its entries changes with an insertion by what the new
entry weighs more than the one it replaces. Of several writes to a key the last one counts, and a
scan lists exactly the entries of its name space.
-/

namespace StakeQuorum

/-! ### Lists in ascending order -/

section Ascending

variable {α : Type} {key : α → Bytes} {l l' : List α}

theorem nodup_of_ascending (h : l.Pairwise fun a b => key a < key b) : l.Nodup := by
  refine h.imp ?_
  rintro a b hab rfl
  exact List.lt_irrefl _ hab

theorem eq_of_ascending (h : l.Pairwise fun a b => key a < key b)
    (h' : l'.Pairwise fun a b => key a < key b) (hm : ∀ a, a ∈ l ↔ a ∈ l') : l = l' := by
  have hp : l.Perm l' :=
    (List.perm_ext_iff_of_nodup (nodup_of_ascending h) (nodup_of_ascending h')).2 hm
  refine hp.eq_of_pairwise ?_ h h'
  intro a b _ _ hab hba
  exact absurd hba (List.lt_asymm hab)

end Ascending

/-! ### Lists that a test divides -/

section Divided

variable {α : Type} {p : α → Bool} {l : List α}

theorem takeWhile_eq_filter (h : l.Pairwise fun a b => p b → p a) : l.takeWhile p = l.filter p := by
  induction l with
  | nil => rfl
  | cons a l ih =>
    obtain ⟨ha, hl⟩ := List.pairwise_cons.1 h
    by_cases hp : p a
    · rw [List.takeWhile_cons_of_pos hp, List.filter_cons_of_pos hp, ih hl]
    · have hnone : l.filter p = [] := List.filter_eq_nil_iff.2 fun b hb hpb => hp (ha b hb hpb)
      rw [List.takeWhile_cons_of_neg hp, List.filter_cons_of_neg hp, hnone]

theorem dropWhile_eq_filter (h : l.Pairwise fun a b => p b → p a) :
    l.dropWhile p = l.filter fun a => !p a := by
  induction l with
  | nil => rfl
  | cons a l ih =>
    obtain ⟨ha, hl⟩ := List.pairwise_cons.1 h
    by_cases hp : p a
    · rw [List.dropWhile_cons_of_pos hp, List.filter_cons_of_neg (by simp [hp]), ih hl]
    · have hall : ∀ b ∈ a :: l, (!p b) = true := by
        rw [List.forall_mem_cons]
        exact ⟨by simpa using hp, fun b hb => by simpa using mt (ha b hb) hp⟩
      rw [List.dropWhile_cons_of_neg hp, List.filter_eq_self.2 hall]

end Divided

namespace ByteMap

variable {β : Type} {m m' : ByteMap β} {k : Bytes} {v : β}

/-! ### Lookups -/

theorem mem_entries_iff : (k, v) ∈ m.entries ↔ m.get? k = some v := by
  obtain ⟨es, hes⟩ := m
  simp only [get?]
  induction es with
  | nil => simp
  | cons d ds ih =>
    obtain ⟨hd, hds⟩ := List.pairwise_cons.1 hes
    by_cases h : d.1 = k
    · have hk : (k, v) ∉ ds := fun hm => List.lt_irrefl _ (h ▸ hd _ hm)
      rw [List.find?_cons_of_pos (by simpa using h), List.mem_cons, or_iff_left hk]
      simp only [Option.map_some, Option.some.injEq]
      constructor
      · rintro rfl
        rfl
      · rintro rfl
        exact Prod.ext h.symm rfl
    · rw [List.find?_cons_of_neg (by simpa using h), ← ih hds, List.mem_cons, or_iff_right]
      rintro rfl
      exact h rfl

theorem ext_get? (h : ∀ k, m.get? k = m'.get? k) : m = m' := by
  refine ByteMap.ext (eq_of_ascending m.ascending m'.ascending ?_)
  rintro ⟨k, v⟩
  rw [mem_entries_iff, mem_entries_iff, h]

theorem contains_eq_false_iff : m.contains k = false ↔ m.get? k = none := by
  simp [contains]

theorem mem_keys_iff : k ∈ m.keys ↔ (m.get? k).isSome := by
  simp [keys, mem_entries_iff, Option.isSome_iff_exists]

theorem nodup_keys (m : ByteMap β) : m.keys.Nodup := by
  have hkeys : m.keys.Pairwise fun a b => id a < id b := List.pairwise_map.2 m.ascending
  exact nodup_of_ascending hkeys

theorem seek_eq_filter (m : ByteMap β) (target : Bytes) :
    m.seek target = m.entries.filter fun e => !decide (e.1 < target) := by
  refine dropWhile_eq_filter (m.ascending.imp fun hab hb => ?_)
  simp only [decide_eq_true_eq] at hb ⊢
  exact List.lt_trans hab hb

/-! ### Sums over the entries -/

/-- The sum of what the entries weigh. -/
def weigh (f : Bytes → β → Nat) (m : ByteMap β) : Nat := (m.entries.map fun e => f e.1 e.2).sum

theorem weigh_insert (f : Bytes → β → Nat) (m : ByteMap β) (k : Bytes) (v : β) :
    (m.insert k v).weigh f + (m.get? k).elim 0 (f k) = m.weigh f + f k v := by
  obtain ⟨es, hes⟩ := m
  simp only [weigh, get?, insert]
  induction es with
  | nil => simp [insertEntry]
  | cons d ds ih =>
    obtain ⟨hd, hds⟩ := List.pairwise_cons.1 hes
    have ih := ih hds
    unfold insertEntry
    split
    · rename_i hlt
      have hne : ∀ e ∈ d :: ds, ¬(e.1 == k) = true := by
        intro e he hek
        have hek : e.1 = k := by simpa using hek
        rcases List.mem_cons.1 he with rfl | he
        · exact List.lt_irrefl _ (hek ▸ hlt)
        · exact List.lt_asymm (hd e he) (hek ▸ hlt)
      simp only [List.find?_eq_none.2 hne, List.map_cons, List.sum_cons, Option.map_none,
        Option.elim_none]
      omega
    · split
      · rename_i hk
        rw [List.find?_cons_of_pos (by simpa using hk.symm)]
        simp only [List.map_cons, List.sum_cons, Option.map_some, Option.elim_some, ← hk]
        omega
      · rename_i hk
        rw [List.find?_cons_of_neg (by simpa using fun h => hk h.symm)]
        simp only [List.map_cons, List.sum_cons]
        omega

end ByteMap

namespace Store

/-! ### Writes -/

/-- Of several writes to a key the last one counts. -/
theorem Batch.get?_applyTo (b : Batch) (m : ByteMap Bytes) (k : Bytes) :
    (b.applyTo m).get? k = ((b.reverse.find? fun w => w.1 == k).map (·.2)).getD (m.get? k) := by
  induction b generalizing m with
  | nil => rfl
  | cons w b ih =>
    rw [Batch.applyTo_cons, ih, List.reverse_cons, List.find?_append]
    cases h : b.reverse.find? fun w => w.1 == k with
    | some w' => rfl
    | none =>
      obtain ⟨k', v⟩ := w
      by_cases hk : k' = k
      · cases v <;> simp [Batch.step, ByteMap.get?_insert, ByteMap.get?_erase, hk]
      · cases v <;> simp [Batch.step, ByteMap.get?_insert, ByteMap.get?_erase, hk]

theorem Batch.get?_applyTo_of_not_mem {b : Batch} {k : Bytes} (m : ByteMap Bytes)
    (h : k ∉ b.map (·.1)) : (b.applyTo m).get? k = m.get? k := by
  rw [get?_applyTo, List.find?_eq_none.2]
  · rfl
  · intro w hw hk
    exact h (List.mem_map.2 ⟨w, List.mem_reverse.1 hw, by simpa using hk⟩)

theorem Batch.get?_applyTo_of_mem {b : Batch} {k : Bytes} {v : Option Bytes} (m : ByteMap Bytes)
    (hb : (b.map (·.1)).Nodup) (h : (k, v) ∈ b) : (b.applyTo m).get? k = v := by
  induction b generalizing m with
  | nil => simp at h
  | cons w b ih =>
    rw [List.map_cons, List.nodup_cons] at hb
    rw [applyTo_cons]
    rcases List.mem_cons.1 h with rfl | h
    · rw [get?_applyTo_of_not_mem _ hb.1]
      cases v <;> simp [step, ByteMap.get?_insert, ByteMap.get?_erase]
    · exact ih _ hb.2 h

namespace Database

variable {db : Database}

theorem faultOn_of_healthy (h : db.Healthy) (a : Access) : db.faultOn a = none := by
  unfold faultOn
  rw [show db.fault = none from h]

theorem get_of_healthy (h : db.Healthy) (k : Bytes) :
    db.get k = match db.contents.get? k with
      | some v => .ok v
      | none => .error Status.notFound := by
  cases hk : db.contents.get? k <;> simp only [get, faultOn_of_healthy h, hk]

theorem contains_of_healthy (h : db.Healthy) (k : Bytes) :
    db.contains k = (db.contents.get? k).isSome := by
  rw [contains, get_of_healthy h]
  cases db.contents.get? k <;> rfl

theorem put_of_healthy (h : db.Healthy) (k v : Bytes) :
    db.put k v = ({}, { db with contents := db.contents.insert k v }) := by
  rw [put, faultOn_of_healthy h]

theorem write_of_healthy (h : db.Healthy) (b : Batch) :
    db.write b = ({}, { db with contents := b.applyTo db.contents }) := by
  rw [write, faultOn_of_healthy h]

theorem snd_put_of_not_isOk {k v : Bytes} (h : (db.put k v).1.isOk = false) :
    (db.put k v).2 = db := by
  unfold put at h ⊢
  split <;> simp_all [Status.isOk]

theorem snd_write_of_not_isOk {b : Batch} (h : (db.write b).1.isOk = false) :
    (db.write b).2 = db := by
  unfold write at h ⊢
  split <;> simp_all [Status.isOk]

/-! ### Scans -/

/-- A key that does not come before a name space and is not in it comes after the whole of it. -/
theorem head?_ne_of_lt {mark : UInt8} {k k' : Bytes} (h : ¬ k < [mark])
    (hk : k.head? ≠ some mark) (hlt : k < k') : k'.head? ≠ some mark := by
  intro hk'
  cases k with
  | nil => exact h (List.nil_lt_cons ..)
  | cons c t =>
    cases k' with
    | nil => exact List.not_lt_nil _ hlt
    | cons c' t' =>
      obtain rfl : c' = mark := by simpa using hk'
      rcases List.cons_lt_cons_iff.1 hlt with hc | ⟨rfl, -⟩
      · exact h (List.cons_lt_cons_iff.2 (.inl hc))
      · exact hk rfl

theorem not_lt_of_head? {mark : UInt8} {k : Bytes} (h : k.head? = some mark) : ¬ k < [mark] := by
  cases k with
  | nil => simp at h
  | cons c t =>
    obtain rfl : c = mark := by simpa using h
    intro hlt
    rcases List.cons_lt_cons_iff.1 hlt with hc | ⟨-, ht⟩
    · exact UInt8.lt_irrefl _ hc
    · exact List.not_lt_nil _ ht

/-- A scan lists the entries of a name space in the order of their keys. -/
theorem scan_eq_filter (db : Database) (mark : UInt8) :
    db.scan mark = db.contents.entries.filter fun e => e.1.head? == some mark := by
  have hdivided : (db.contents.seek [mark]).Pairwise fun a b =>
      (b.1.head? == some mark) = true → (a.1.head? == some mark) = true := by
    rw [ByteMap.seek_eq_filter, List.pairwise_filter]
    refine db.contents.ascending.imp fun {a b} hab ha _ hb => ?_
    simp only [Bool.not_eq_true', decide_eq_false_iff_not, beq_iff_eq] at ha hb ⊢
    exact Decidable.byContradiction fun hmark => head?_ne_of_lt ha hmark hab hb
  rw [scan, takeWhile_eq_filter hdivided, ByteMap.seek_eq_filter, List.filter_filter]
  refine List.filter_congr fun e _ => ?_
  by_cases hmark : e.1.head? = some mark
  · simp [hmark, not_lt_of_head? hmark]
  · simp [hmark]

end Database

end Store

end StakeQuorum
