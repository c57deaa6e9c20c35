import StakeQuorum.Codec.Stream
import StakeQuorum.Proofs.Codec.Reads

/-! # Fields on a stream

Fields that were written to a stream are read back in order, and whatever follows them stays. More
input changes nothing for a reader except that it may no longer lack any, so that a stream that was
cut short fails at the first field that is not whole, and only for want of input.
-/

namespace StakeQuorum

/-- The input ended too early. -/
def ReadError.IsShortage (e : ReadError) : Prop := e = .endOfData ∨ e = .lengthExceedsData

namespace Reader

variable {α β : Type} {r r' : Reader α} {f : α → Reader β} {bs p : Bytes} {a : α}

/-! ### Longer inputs -/

/-- The reader takes bytes from the front, and more input changes nothing but a lack of input. -/
structure Stable (r : Reader α) : Prop where
  front : ∀ s, (r s).2 <:+ s
  ok : ∀ {s a rest}, r s = (.ok a, rest) → ∀ t, r (s ++ t) = (.ok a, rest ++ t)
  error : ∀ {s e left}, r s = (.error e, left) →
    e.IsShortage ∨ ∀ t, ∃ left', r (s ++ t) = (.error e, left')

theorem Stable.shortage (hr : Stable r) (h : Reads r bs a) (hp : p <+: bs) (hne : p ≠ bs) :
    ∃ e left, r p = (.error e, left) ∧ e.IsShortage := by
  obtain ⟨q, rfl⟩ := hp
  have hall : r (p ++ q) = (.ok a, []) := by simpa using h []
  cases hcut : r p with
  | mk result left =>
    cases result with
    | ok b =>
      have hrest : left ++ q = [] := by
        have := (hr.ok hcut q).symm.trans hall
        simp only [Prod.mk.injEq] at this
        exact this.2
      exact absurd (List.append_eq_nil_iff.1 hrest).2 (by simpa using hne)
    | error e =>
      refine ⟨e, left, rfl, (hr.error hcut).resolve_right fun hstays => ?_⟩
      obtain ⟨left', he⟩ := hstays q
      simp [hall] at he

theorem stable_pure (a : α) : Stable (pure a : Reader α) where
  front s := List.suffix_refl s
  ok h t := by
    simp only [pure_run, Prod.mk.injEq] at h ⊢
    exact ⟨h.1, by rw [h.2]⟩
  error h := by simp at h

theorem stable_fail (e : ReadError) : Stable (fail e : Reader α) where
  front s := List.suffix_refl s
  ok h := by simp [fail] at h
  error h := by
    simp only [fail, Prod.mk.injEq, Except.error.injEq] at h
    obtain ⟨rfl, -⟩ := h
    exact .inr fun t => ⟨_, rfl⟩

theorem stable_take (n : Nat) : Stable (take n) where
  front s := by
    unfold take
    split
    · exact List.drop_suffix n s
    · exact List.suffix_refl s
  ok h t := by
    obtain ⟨rfl, rfl⟩ := eq_of_take h
    rw [List.append_assoc]
    exact take_append _ _
  error h := by
    unfold take at h
    split at h
    · simp at h
    · simp only [Prod.mk.injEq, Except.error.injEq] at h
      exact .inl (.inl h.1.symm)

theorem Stable.bind (hr : Stable r) (hf : ∀ a, Stable (f a)) : Stable (r >>= f) where
  front s := by
    have hfirst := hr.front s
    rw [bind_run]
    split
    · rename_i a mid h
      rw [h] at hfirst
      exact ((hf a).front mid).trans hfirst
    · rename_i e left h
      rwa [h] at hfirst
  ok h t := by
    obtain ⟨a, mid, ha, hb⟩ := bind_eq_ok_iff.1 h
    rw [bind_ok f (hr.ok ha t)]
    exact (hf a).ok hb t
  error {s e left} h := by
    rw [bind_run] at h
    split at h
    · rename_i a mid ha
      refine ((hf a).error h).imp_right fun hstays t => ?_
      rw [bind_ok f (hr.ok ha t)]
      exact hstays t
    · rename_i e' left' he
      simp only [Prod.mk.injEq, Except.error.injEq] at h
      obtain ⟨rfl, rfl⟩ := h
      refine (hr.error he).imp_right fun hstays t => ?_
      obtain ⟨left'', he'⟩ := hstays t
      exact ⟨left'', bind_error f he'⟩

theorem Stable.map (hr : Stable r) (g : α → β) : Stable (r >>= fun a => pure (g a)) :=
  hr.bind fun a => stable_pure (g a)

theorem Stable.ite (c : Prop) [Decidable c] (h : Stable r) (h' : Stable r') :
    Stable (if c then r else r') := by
  split
  · exact h
  · exact h'

theorem stable_number (k : Nat) : Stable (number k) := (stable_take k).map _

theorem stable_block (n : Nat) : Stable (block n) := (stable_take n).map _

end Reader

namespace CompactSize

open Reader

theorem stable_wide (k least : Nat) : Stable (wide k least) :=
  (stable_number k).bind fun n => .ite (n < least) (stable_fail _) (stable_pure n)

theorem stable_afterMarker (marker : Nat) : Stable (afterMarker marker) :=
  .ite _ (stable_pure marker) (.ite _ (stable_wide 2 253)
    (.ite _ (stable_wide 4 0x10000) (stable_wide 8 0x100000000)))

theorem stable_read : Stable read :=
  (stable_number 1).bind fun marker => (stable_afterMarker marker).bind fun n =>
    .ite (maxSize < n) (stable_fail _) (stable_pure n)

/-- The bytes after a length. How many are left is not stable, but only whether they are enough
depends on it. -/
theorem stable_payload (n : Nat) :
    Stable (available >>= fun left => if left < n then fail .lengthExceedsData else take n) := by
  have hrun (s : Bytes) :
      (available >>= fun left => if left < n then fail .lengthExceedsData else take n) s =
        if s.length < n then (.error .lengthExceedsData, s) else take n s := by
    rw [bind_ok _ (show available s = (.ok s.length, s) from rfl)]
    split <;> rfl
  constructor
  · intro s
    rw [hrun]
    split
    · exact List.suffix_refl s
    · exact (stable_take n).front s
  · intro s bs rest h t
    rw [hrun] at h ⊢
    split at h
    · simp at h
    · rename_i henough
      rw [if_neg (by rw [List.length_append]; omega)]
      exact (stable_take n).ok h t
  · intro s e left h
    rw [hrun] at h
    split at h
    · simp only [Prod.mk.injEq, Except.error.injEq] at h
      exact .inl (.inr h.1.symm)
    · rename_i henough
      rw [take, if_pos (by omega)] at h
      simp at h

theorem stable_readBytes : Stable readBytes := stable_read.bind stable_payload

end CompactSize

/-! ### Fields -/

/-- The field is not too long to be read back. -/
def Field.Readable : Field → Prop
  | .size n => n ≤ CompactSize.maxSize
  | .bytes bs | .text bs => bs.length ≤ CompactSize.maxSize
  | _ => True

instance (f : Field) : Decidable f.Readable :=
  match f with
  | .size n => inferInstanceAs (Decidable (n ≤ CompactSize.maxSize))
  | .bytes bs | .text bs => inferInstanceAs (Decidable (bs.length ≤ CompactSize.maxSize))
  | .u8 _ | .u16 _ | .u32 _ | .u64 _ | .i64 _ | .digest _ | .block _ =>
    inferInstanceAs (Decidable True)

namespace Reader

variable {f : Field} {fs : List Field}

theorem stable_field (k : FieldKind) : Stable (field k) := by
  cases k with
  | u8 => exact ((stable_number 1).map _).map _
  | u16 => exact ((stable_number 2).map _).map _
  | u32 => exact ((stable_number 4).map _).map _
  | u64 => exact ((stable_number 8).map _).map _
  | i64 => exact (((stable_number 8).map _).map _).map _
  | size => exact CompactSize.stable_read.map _
  | bytes => exact CompactSize.stable_readBytes.map _
  | text => exact CompactSize.stable_readBytes.map _
  | digest => exact (stable_block 32).map _
  | block n => exact (stable_block n).map _

theorem stable_fields (ks : List FieldKind) : Stable (fields ks) := by
  induction ks with
  | nil => exact stable_pure []
  | cons k ks ih => exact (stable_field k).bind fun f => ih.map _

theorem reads_field (h : f.Readable) : Reads (field f.kind) f.encode f := by
  cases f with
  | u8 v => exact (reads_u8 v).map _
  | u16 v => exact (reads_u16 v).map _
  | u32 v => exact (reads_u32 v).map _
  | u64 v => exact (reads_u64 v).map _
  | i64 v => exact (reads_i64 v).map _
  | size n => exact (CompactSize.reads_read h).map _
  | bytes bs => exact (CompactSize.reads_readBytes h).map _
  | text s => exact (CompactSize.reads_readBytes h).map _
  | digest d => exact (reads_block d).map _
  | block b => exact (reads_block b).map _

theorem reads_fields (h : ∀ f ∈ fs, f.Readable) :
    Reads (fields (fs.map Field.kind)) (Field.encodeAll fs) fs := by
  induction fs with
  | nil => exact reads_pure []
  | cons f fs ih =>
    obtain ⟨hf, hfs⟩ := List.forall_mem_cons.1 h
    exact (reads_field hf).bind ((ih hfs).map _)

end Reader

/-! ### Streams -/

namespace Field

variable {fs : List Field} {p : Bytes}

/-- What is left of fields that were cut short: whole fields and a part of the next one. -/
theorem exists_cut (hp : p <+: encodeAll fs) (hne : p ≠ encodeAll fs) :
    ∃ done f later q, fs = done ++ f :: later ∧ p = encodeAll done ++ q ∧
      q <+: f.encode ∧ q ≠ f.encode := by
  induction fs generalizing p with
  | nil => exact absurd (List.prefix_nil.1 hp) hne
  | cons f fs ih =>
    rw [show encodeAll (f :: fs) = f.encode ++ encodeAll fs from rfl] at hp hne
    by_cases hwhole : f.encode <+: p
    · obtain ⟨p', rfl⟩ := hwhole
      obtain ⟨done, g, later, q, rfl, rfl, hq, hqne⟩ :=
        ih ((List.prefix_append_right_inj _).1 hp) fun h => hne (by rw [h])
      exact ⟨f :: done, g, later, q, rfl, by simp [encodeAll], hq, hqne⟩
    · refine ⟨[], f, fs, p, rfl, rfl, ?_, fun h => hwhole (h ▸ List.prefix_refl _)⟩
      exact (List.prefix_or_prefix_of_prefix hp (List.prefix_append ..)).resolve_right hwhole

end Field

namespace Stream

open Reader

variable {α β : Type} {r : Reader α} {f : α → Reader β} {s s' s'' : Stream} {fs : List Field}
  {k : FieldKind} {e : ReadError}

/-- The stream that fields were written to, one after the other. -/
def ofFields (fs : List Field) : Stream := fs.foldl writeField empty

theorem ofFields_eq (fs : List Field) : ofFields fs = ofBytes (Field.encodeAll fs) := by
  suffices h : ∀ s : Stream, fs.foldl writeField s = s.write (Field.encodeAll fs) from h empty
  induction fs with
  | nil => intro s; simp [write, Field.encodeAll]
  | cons f fs ih =>
    intro s
    rw [List.foldl_cons, ih]
    simp [writeField, write, Field.encodeAll]

theorem read_pure (s : Stream) (a : α) : s.read (pure a) = (.ok a, s) := by
  simp [read]

theorem take_sub_length (bs rest : Bytes) :
    (bs ++ rest).take ((bs ++ rest).length - rest.length) = bs := by
  simp

theorem read_bind (hr : Stable r) (hf : ∀ a, Stable (f a)) (s : Stream) :
    s.read (r >>= f) = match s.read r with
      | (.ok a, s') => s'.read (f a)
      | (.error e, s') => (.error e, s') := by
  obtain ⟨consumed, unread⟩ := s
  obtain ⟨first, hfirst⟩ := hr.front unread
  cases h : r unread with
  | mk result mid =>
    rw [h] at hfirst
    cases result with
    | error e => simp only [read, bind_error f h, h]
    | ok a =>
      obtain ⟨second, hsecond⟩ := (hf a).front mid
      simp only [read, bind_ok f h, h]
      cases h' : f a mid with
      | mk result' rest =>
        rw [h'] at hsecond
        obtain rfl : second ++ rest = mid := hsecond
        obtain rfl : first ++ (second ++ rest) = unread := hfirst
        have hboth := take_sub_length (first ++ second) rest
        rw [List.append_assoc] at hboth
        rw [take_sub_length, take_sub_length, hboth, List.append_assoc]

theorem read_of_reads {bs : Bytes} {a : α} (h : Reads r bs a) (consumed rest : Bytes) :
    ({ consumed, unread := bs ++ rest } : Stream).read r =
      (.ok a, { consumed := consumed ++ bs, unread := rest }) := by
  simp [read, h rest]

theorem read_of_error {left : Bytes} (h : r s.unread = (.error e, left)) :
    ∃ s', s.read r = (.error e, s') :=
  ⟨_, by rw [read, h]⟩

theorem read_fields_error {ks later : List FieldKind} (h : s.read (fields ks) = (.ok fs, s'))
    (he : s'.read (field k) = (.error e, s'')) :
    s.read (fields (ks ++ k :: later)) = (.error e, s'') := by
  induction ks generalizing s fs with
  | nil =>
    rw [fields, read_pure] at h
    obtain ⟨-, rfl⟩ := Prod.mk.inj h
    rw [List.nil_append, fields, read_bind (stable_field k) fun f => (stable_fields _).map _, he]
  | cons k' ks ih =>
    rw [fields, read_bind (stable_field k') fun f => (stable_fields _).map _] at h
    rw [List.cons_append, fields, read_bind (stable_field k') fun f => (stable_fields _).map _]
    cases hk : s.read (field k') with
    | mk result mid =>
      rw [hk] at h
      cases result with
      | error e' => simp at h
      | ok f =>
        simp only [read_bind (stable_fields _) fun fs => stable_pure _] at h ⊢
        cases hks : mid.read (fields ks) with
        | mk result' mid' =>
          rw [hks] at h
          cases result' with
          | error e' => simp at h
          | ok gs =>
            simp only [read_pure, Prod.mk.injEq] at h
            obtain ⟨-, rfl⟩ := h
            rw [ih hks]

/-- Fields that were written to a stream are read back from it in order, which leaves exactly what
follows them. A stream that holds only a part of what was written gives back the fields that are
whole, and then fails for want of input. -/
theorem fields_survive (h : ∀ f ∈ fs, f.Readable) :
    (∃ s, (ofFields fs).read (fields (fs.map Field.kind)) = (.ok fs, s) ∧ s.isEmpty = true) ∧
    (∀ rest, ((ofFields fs).write rest).read (fields (fs.map Field.kind)) =
      (.ok fs, { consumed := (ofFields fs).buffer, unread := rest })) ∧
    ∀ p, p <+: (ofFields fs).buffer → p ≠ (ofFields fs).buffer →
      ∃ done f later s e s', fs = done ++ f :: later ∧
        (ofBytes p).read (fields (done.map Field.kind)) = (.ok done, s) ∧
        s.read (field f.kind) = (.error e, s') ∧ (e = .endOfData ∨ e = .lengthExceedsData) ∧
        (ofBytes p).read (fields (fs.map Field.kind)) = (.error e, s') := by
  have hall (rest : Bytes) : ((ofFields fs).write rest).read (fields (fs.map Field.kind)) =
      (.ok fs, { consumed := (ofFields fs).buffer, unread := rest }) := by
    rw [ofFields_eq]
    exact read_of_reads (reads_fields h) [] rest
  refine ⟨⟨_, by simpa [write] using hall [], rfl⟩, hall, ?_⟩
  intro p hp hne
  rw [ofFields_eq] at hp hne
  obtain ⟨done, f, later, q, rfl, rfl, hq, hqne⟩ := Field.exists_cut hp hne
  obtain ⟨hdone, hrest⟩ := List.forall_mem_append.1 h
  have hread := read_of_reads (reads_fields hdone) [] q
  obtain ⟨e, left, he, hshort⟩ :=
    (stable_field f.kind).shortage (reads_field (List.forall_mem_cons.1 hrest).1) hq hqne
  obtain ⟨s', hfail⟩ := read_of_error
    (s := { consumed := [] ++ Field.encodeAll done, unread := q }) he
  refine ⟨done, f, later, _, e, s', rfl, hread, hfail, hshort, ?_⟩
  rw [List.map_append, List.map_cons]
  exact read_fields_error hread hfail

/-- One field of each kind, and an empty block. -/
def mixedFields : List Field :=
  [.u8 255, .u16 258, .u32 65539, .u64 (2 ^ 64 - 1), .i64 (-2), .size 70000, .bytes [9, 8, 7],
    .text "", .digest .zero, .block (n := 2) ⟨[1, 2], rfl⟩, .block (n := 0) .zero]

/-- They survive, and also a cut inside the bytes `9 8 7` spares the fields before it. -/
theorem fields_survive_mixed :
    (∀ f ∈ mixedFields, f.Readable) ∧
      (∃ s, (ofFields mixedFields).read (fields (mixedFields.map Field.kind)) =
        (.ok mixedFields, s) ∧ s.isEmpty = true) ∧
      ∃ done f later s e s', mixedFields = done ++ f :: later ∧
        (ofBytes ((ofFields mixedFields).buffer.take 30)).read (fields (done.map Field.kind)) =
          (.ok done, s) ∧
        s.read (field f.kind) = (.error e, s') ∧ (e = .endOfData ∨ e = .lengthExceedsData) := by
  have hreadable : ∀ f ∈ mixedFields, f.Readable := by decide
  obtain ⟨hback, -, hcut⟩ := fields_survive hreadable
  obtain ⟨done, f, later, s, e, s', hparts, hdone, hfails, hshort, -⟩ :=
    hcut _ (List.take_prefix 30 _) (by decide +kernel)
  exact ⟨hreadable, hback, done, f, later, s, e, s', hparts, hdone, hfails, hshort⟩

end Stream

end StakeQuorum
