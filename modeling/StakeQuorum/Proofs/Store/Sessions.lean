import StakeQuorum.Proofs.Store.Contents
import StakeQuorum.Store.Session

/-! # Sessions and maps

A database answers as the map that its writes describe, one after the other. A cursor shows the
entries of the map as it was when the cursor was made, each once and in ascending order, whatever
is done to the database or to other cursors meanwhile.
-/

namespace StakeQuorum.Store

variable {s : Session} {o : Operation} {os : List Operation} {c : Cursor} {i : Nat}

/-! ### Writes -/

/-- The ways to add to a batch. -/
inductive Batch.Edit
  | put (key value : Bytes)
  | delete (key : Bytes)

namespace Batch.Edit

def addTo (b : Batch) : Edit → Batch
  | put k v => b.put k v
  | delete k => b.delete k

/-- The batch that edits of an empty one make. -/
def batch (es : List Edit) : Batch := es.foldl addTo []

def operation : Edit → Operation
  | put k v => .put k v
  | delete k => .delete k

end Batch.Edit

namespace Operation

/-- The writes of an operation in their order. -/
def writes : Operation → Batch
  | put k v => [(k, some v)]
  | delete k => [(k, none)]
  | write b => b
  | openCursor | move .. => []

/-- What each key has after operations on an empty map: each write replaces what its key had. -/
def lookupsAfter (os : List Operation) : Bytes → Option Bytes :=
  (os.flatMap writes).foldl (fun f w => Function.update f w.1 w.2) fun _ => none

def movesOf (i : Nat) : Operation → List Move
  | move j m => if j = i then [m] else []
  | put .. | delete _ | write _ | openCursor => []

end Operation

theorem Batch.get?_applyTo_eq_foldl (b : Batch) (m : ByteMap Bytes) :
    (b.applyTo m).get? = b.foldl (fun f w => Function.update f w.1 w.2) m.get? := by
  induction b generalizing m with
  | nil => rfl
  | cons w b ih =>
    rw [applyTo_cons, ih, List.foldl_cons]
    congr 1
    funext k
    obtain ⟨k', v⟩ := w
    rw [Function.update_apply]
    cases v <;> simp [step, ByteMap.get?_insert, ByteMap.get?_erase, eq_comm]

theorem Batch.applyTo_applyTo (b : Batch) (m : ByteMap Bytes) :
    b.applyTo (b.applyTo m) = b.applyTo m := by
  refine ByteMap.ext_get? fun k => ?_
  rw [get?_applyTo, get?_applyTo]
  cases b.reverse.find? fun w => w.1 == k <;> rfl

/-! ### Cursors -/

namespace Cursor

@[simp] theorem snapshot_move (c : Cursor) (m : Move) : (c.move m).snapshot = c.snapshot := by
  cases m <;> rfl

theorem snapshot_foldl_move (c : Cursor) (ms : List Move) :
    (ms.foldl move c).snapshot = c.snapshot := by
  induction ms generalizing c with
  | nil => rfl
  | cons m ms ih => rw [List.foldl_cons, ih, snapshot_move]

theorem rest_foldl_next (c : Cursor) (n : Nat) :
    ((List.replicate n Move.next).foldl move c).rest = c.rest.drop n := by
  induction n generalizing c with
  | zero => rfl
  | succ n ih =>
    rw [List.replicate_succ, List.foldl_cons, ih]
    exact List.drop_tail

end Cursor

/-! ### Steps and runs -/

namespace Session

/-- What an operation leaves of a session when every access works. -/
def next (s : Session) (o : Operation) : Session where
  db := { s.db with contents := o.writes.applyTo s.db.contents }
  cursors := match o with
    | .openCursor => s.cursors ++ [s.db.cursor]
    | .move i m => s.cursors.modify i (·.move m)
    | .put .. | .delete _ | .write _ => s.cursors

theorem step_of_healthy (h : s.db.Healthy) (o : Operation) : s.step o = ({}, s.next o) := by
  cases o with
  | put k v =>
    simp [step, Database.put_of_healthy h, next, Operation.writes, Batch.applyTo, Batch.step]
  | delete k => rfl
  | write b => simp [step, Database.write_of_healthy h, next, Operation.writes]
  | openCursor => rfl
  | move i m => rfl

theorem run_of_healthy (h : s.db.Healthy) (os : List Operation) :
    s.run os = (List.replicate os.length {}, os.foldl next s) := by
  induction os generalizing s with
  | nil => rfl
  | cons o os ih =>
    have hrest := ih (s := s.next o) h
    simp only [run, step_of_healthy h, hrest, List.length_cons, List.replicate_succ,
      List.foldl_cons]

theorem contents_foldl_next (s : Session) (os : List Operation) :
    (os.foldl next s).db.contents =
      Batch.applyTo (os.flatMap Operation.writes) s.db.contents := by
  induction os generalizing s with
  | nil => rfl
  | cons o os ih =>
    rw [List.foldl_cons, ih, List.flatMap_cons, Batch.applyTo, Batch.applyTo, List.foldl_append]
    rfl

theorem healthy_empty : ({} : Session).db.Healthy := by
  rfl

theorem healthy_foldl_next (h : s.db.Healthy) (os : List Operation) :
    (os.foldl next s).db.Healthy := by
  induction os generalizing s with
  | nil => exact h
  | cons o os ih => exact ih h

theorem next_write_write (s : Session) (b : Batch) :
    (s.next (.write b)).next (.write b) = s.next (.write b) := by
  simp only [next, Operation.writes, Batch.applyTo_applyTo]

/-- A batch that edits have made is written as if each of them were carried out at once. -/
theorem foldl_next_operation (s : Session) (es : List Batch.Edit) :
    (es.map Batch.Edit.operation).foldl next s = s.next (.write (Batch.Edit.batch es)) := by
  have hedits (es : List Batch.Edit) (b : Batch) :
      (es.map Batch.Edit.operation).foldl next (s.next (.write b)) =
        s.next (.write (es.foldl Batch.Edit.addTo b)) := by
    induction es generalizing b with
    | nil => rfl
    | cons e es ih =>
      rw [List.map_cons, List.foldl_cons, List.foldl_cons, ← ih]
      congr 1
      cases e <;> simp [Batch.Edit.operation, Batch.Edit.addTo, next, Operation.writes, Batch.step]
  exact hedits es []

theorem length_cursors_foldl_next (s : Session) (os : List Operation) :
    (os.foldl next s).cursors.length = s.cursors.length + os.count .openCursor := by
  induction os generalizing s with
  | nil => rfl
  | cons o os ih =>
    rw [List.foldl_cons, ih, List.count_cons]
    cases o <;> simp [next]
    omega

theorem getElem?_cursors_next (h : s.cursors[i]? = some c) (o : Operation) :
    (s.next o).cursors[i]? = some ((o.movesOf i).foldl Cursor.move c) := by
  cases o with
  | openCursor =>
    obtain ⟨hi, -⟩ := List.getElem?_eq_some_iff.1 h
    rw [next, List.getElem?_append_left hi, h]
    rfl
  | move j m =>
    rw [next, List.getElem?_modify, h, Operation.movesOf]
    by_cases hj : j = i <;> simp [hj]
  | put | delete | write => exact h

/-- A cursor is reached by its own moves only. -/
theorem getElem?_cursors_foldl_next (h : s.cursors[i]? = some c) (os : List Operation) :
    (os.foldl next s).cursors[i]? =
      some ((os.flatMap (Operation.movesOf i)).foldl Cursor.move c) := by
  induction os generalizing s c with
  | nil => exact h
  | cons o os ih =>
    rw [List.foldl_cons, ih (getElem?_cursors_next h o), List.flatMap_cons, List.foldl_append]

theorem flatMap_movesOf (h : ∀ m, .move i m ∈ os → m = .next) :
    os.flatMap (Operation.movesOf i) = List.replicate (os.count (.move i .next)) Move.next := by
  induction os with
  | nil => rfl
  | cons o os ih =>
    have ih := ih fun m hm => h m (List.mem_cons_of_mem _ hm)
    rw [List.flatMap_cons, ih, List.count_cons]
    cases o with
    | move j m =>
      by_cases hj : j = i
      · subst hj
        obtain rfl := h m List.mem_cons_self
        simp [Operation.movesOf, List.replicate_succ]
      · simp [Operation.movesOf, hj]
    | put | delete | write | openCursor => simp [Operation.movesOf]

/-! ### Walks -/

/-- A cursor that was made after some operations and then moved to a start shows one entry for each
further step: exactly the wanted entries that were there when it was made, in ascending order, and
then none for ever. After the start only these steps move the cursor, and whatever else is done
does not matter. -/
def Enumerates (before : List Operation) (start : Move) (wanted : Bytes → Prop) : Prop :=
  ∃ entries : List (Bytes × Bytes), Ascending entries ∧
    (∀ k v, (k, v) ∈ entries ↔ wanted k ∧ Operation.lookupsAfter before k = some v) ∧
    ∀ between later : List Operation,
      (∀ m, .move (before.count .openCursor) m ∈ later → m = .next) →
      (run {} (before ++ .openCursor :: (between ++
          .move (before.count .openCursor) start :: later))).2.current?
            (before.count .openCursor) =
        entries[later.count (.move (before.count .openCursor) .next)]?

variable {before : List Operation} {start : Move} {wanted : Bytes → Prop}

theorem get?_contents_foldl_next (os : List Operation) (k : Bytes) :
    (os.foldl next {}).db.contents.get? k = Operation.lookupsAfter os k := by
  rw [contents_foldl_next, Batch.get?_applyTo_eq_foldl]
  rfl

/-- A start that leads to the same entries whatever the cursor was moved to before. -/
theorem enumerates_of_rest {entries : List (Bytes × Bytes)}
    (hrest : ∀ c : Cursor, c.snapshot = (before.foldl next {}).db.contents →
      (c.move start).rest = entries)
    (hascending : Ascending entries)
    (hmem : ∀ k v, (k, v) ∈ entries ↔
      wanted k ∧ (before.foldl next {}).db.contents.get? k = some v) :
    Enumerates before start wanted := by
  refine ⟨entries, hascending, fun k v => ?_, fun between later hlater => ?_⟩
  · rw [hmem, get?_contents_foldl_next]
  · have hlength := length_cursors_foldl_next {} before
    rw [List.length_nil, Nat.zero_add] at hlength
    have hopened : ((before.foldl next {}).next .openCursor).cursors[before.count .openCursor]? =
        some (before.foldl next {}).db.cursor := by
      rw [next, ← hlength, List.getElem?_concat_length]
    have hbetween := getElem?_cursors_foldl_next hopened between
    have hstarted := getElem?_cursors_next hbetween (.move (before.count .openCursor) start)
    have hwalked := getElem?_cursors_foldl_next hstarted later
    rw [flatMap_movesOf hlater] at hwalked
    rw [run_of_healthy healthy_empty]
    simp only [List.foldl_append, List.foldl_cons]
    rw [current?, hwalked, Option.bind_some, Cursor.current?, Cursor.rest_foldl_next,
      List.head?_drop, Operation.movesOf, if_pos rfl, List.foldl_cons, List.foldl_nil, hrest]
    exact Cursor.snapshot_foldl_move _ _

theorem enumerates_first (before : List Operation) : Enumerates before .first fun _ => True := by
  refine enumerates_of_rest (fun c hc => congrArg ByteMap.entries hc)
    (before.foldl next {}).db.contents.ascending fun k v => ?_
  rw [ByteMap.mem_entries_iff, true_and]

theorem enumerates_seek (before : List Operation) (target : Bytes) :
    Enumerates before (.seek target) fun k => target ≤ k := by
  refine enumerates_of_rest (fun c hc => congrArg (ByteMap.seek · target) hc) ?_ fun k v => ?_
  · rw [ByteMap.seek_eq_filter]
    exact (before.foldl next {}).db.contents.ascending.filter _
  · simp [ByteMap.seek_eq_filter, ByteMap.mem_entries_iff, and_comm]

/-- A database on which every access works is a finite map. No operation fails, and every read
answers as the map that the operations describe. A batch counts as the puts and deletes that made
it, in their order, so that the last one of a key wins, and no more if it is written once more.
Every cursor walks through the entries of the map at the time when it was made. -/
theorem follows_map :
    (∀ os, ∃ s, run {} os = (List.replicate os.length {}, s) ∧
      (∀ k, s.db.get k = (Operation.lookupsAfter os k).elim (.error Status.notFound) .ok) ∧
      (∀ k, s.db.contains k = (Operation.lookupsAfter os k).isSome) ∧
      ∃ keys : Finset Bytes, (∀ k, k ∈ keys ↔ (Operation.lookupsAfter os k).isSome) ∧
        s.db.size = keys.card) ∧
    (∀ os es, (run {} (os ++ [.write (Batch.Edit.batch es)])).2 =
      (run {} (os ++ es.map Batch.Edit.operation)).2) ∧
    (∀ os b k v, Operation.lookupsAfter (os ++ [.write (b.put k v)]) =
      Function.update (Operation.lookupsAfter (os ++ [.write b])) k (some v)) ∧
    (∀ os b k, Operation.lookupsAfter (os ++ [.write (b.delete k)]) =
      Function.update (Operation.lookupsAfter (os ++ [.write b])) k none) ∧
    (∀ os b, (run {} (os ++ [.write b, .write b])).2 = (run {} (os ++ [.write b])).2) ∧
    (∀ before, Enumerates before .first fun _ => True) ∧
    ∀ before target, Enumerates before (.seek target) fun k => target ≤ k := by
  refine ⟨fun os => ?_, fun os es => ?_, fun os b k v => ?_, fun os b k => ?_, fun os b => ?_,
    enumerates_first, enumerates_seek⟩
  · have hhealthy := healthy_foldl_next healthy_empty os
    refine ⟨_, run_of_healthy healthy_empty os, fun k => ?_, fun k => ?_,
      (os.foldl next {}).db.contents.keys.toFinset, fun k => ?_, ?_⟩
    · rw [Database.get_of_healthy hhealthy, get?_contents_foldl_next]
      cases Operation.lookupsAfter os k <;> rfl
    · rw [Database.contains_of_healthy hhealthy, get?_contents_foldl_next]
    · rw [List.mem_toFinset, ByteMap.mem_keys_iff, get?_contents_foldl_next]
    · rw [List.toFinset_card_of_nodup (ByteMap.nodup_keys _), ByteMap.keys, List.length_map]
      rfl
  · rw [run_of_healthy healthy_empty, run_of_healthy healthy_empty, List.foldl_append,
      List.foldl_append, foldl_next_operation]
    rfl
  · simp [Operation.lookupsAfter, Operation.writes, Batch.put]
  · simp [Operation.lookupsAfter, Operation.writes, Batch.delete]
  · rw [run_of_healthy healthy_empty, run_of_healthy healthy_empty, List.foldl_append,
      List.foldl_append]
    simp only [List.foldl_cons, List.foldl_nil, next_write_write]

def fruit : List Operation :=
  [.put "fig" "1", .write (Batch.Edit.batch [.put "apple" "2", .put "apple" "3", .delete "fig"]),
    .put "plum" "4"]

/-- A walk over the fruit that is not disturbed by what is written on the way. -/
theorem follows_map_fruit :
    let later := [Operation.move 0 .next, .put "quince" "5", .move 0 .next]
    (∀ m, .move (fruit.count .openCursor) m ∈ later → m = .next) ∧
      ∃ entries : List (Bytes × Bytes), Ascending entries ∧
        (∀ k v, (k, v) ∈ entries ↔ "apple" ≤ k ∧ Operation.lookupsAfter fruit k = some v) ∧
        (("apple" : Bytes), ("3" : Bytes)) ∈ entries ∧
        (run {} (fruit ++ .openCursor :: ([.delete "plum"] ++
            .move (fruit.count .openCursor) (.seek "apple") :: later))).2.current?
              (fruit.count .openCursor) = entries[2]? := by
  intro later
  have hlater : ∀ m, .move (fruit.count .openCursor) m ∈ later → m = .next := by
    intro m hm
    simpa [later, fruit] using hm
  obtain ⟨-, -, -, -, -, -, hseek⟩ := follows_map
  obtain ⟨entries, hascending, hmem, hwalk⟩ := hseek fruit "apple"
  exact ⟨hlater, entries, hascending, hmem, (hmem "apple" "3").2 (by decide), hwalk _ later hlater⟩

end Session

end StakeQuorum.Store
