import StakeQuorum.Bytes

/-! # Cutting byte strings

A byte string is cut at a separator into pieces, of which there is always at least one. A text of
lines may end with a line that is not terminated; a terminator at the very end starts no line.
-/

namespace StakeQuorum.Bytes

/-- The parts between the separators. -/
def pieces (sep : UInt8) (s : Bytes) : List Bytes :=
  s.foldr (fun c ps => if c = sep then [] :: ps else (c :: ps.headD []) :: ps.tail) [[]]

@[simp] theorem pieces_nil (sep : UInt8) : pieces sep [] = [[]] := rfl

theorem pieces_cons (sep c : UInt8) (s : Bytes) :
    pieces sep (c :: s) =
      if c = sep then [] :: pieces sep s
      else (c :: (pieces sep s).headD []) :: (pieces sep s).tail := rfl

theorem pieces_ne_nil (sep : UInt8) (s : Bytes) : pieces sep s ≠ [] := by
  cases s with
  | nil => simp
  | cons c s => rw [pieces_cons]; split <;> simp

theorem pieces_append {sep : UInt8} {a : Bytes} (h : sep ∉ a) (s : Bytes) :
    pieces sep (a ++ s) = (a ++ (pieces sep s).headD []) :: (pieces sep s).tail := by
  induction a with
  | nil =>
    have := pieces_ne_nil sep s
    cases hs : pieces sep s <;> simp_all
  | cons c a ih =>
    simp only [List.mem_cons, not_or] at h
    rw [List.cons_append, pieces_cons, if_neg (Ne.symm h.1), ih h.2]
    rfl

/-- The parts that a separator ends, and what follows the last one unless it is empty. -/
def terminated (sep : UInt8) (s : Bytes) : List Bytes :=
  let ps := pieces sep s
  if ps.getLast? = some [] then ps.dropLast else ps

def newline : UInt8 := '\n'.toUInt8

def lines (s : Bytes) : List Bytes := terminated newline s

/-- What stands before and after the first separator. -/
def cut? (sep : UInt8) (s : Bytes) : Option (Bytes × Bytes) :=
  match s.dropWhile (· != sep) with
  | [] => none
  | _ :: rest => some (s.takeWhile (· != sep), rest)

theorem cut?_append_cons {sep : UInt8} {a : Bytes} (h : sep ∉ a) (b : Bytes) :
    cut? sep (a ++ sep :: b) = some (a, b) := by
  have ha : ∀ c ∈ a, (c != sep) = true := fun c hc => by
    simp only [bne_iff_ne, ne_eq]
    rintro rfl
    exact h hc
  simp [cut?, List.dropWhile_append_of_pos ha, List.takeWhile_append_of_pos ha]

theorem length_lt_of_cut? {sep : UInt8} {s a b : Bytes} (h : cut? sep s = some (a, b)) :
    b.length < s.length := by
  unfold cut? at h
  split at h
  · simp at h
  · rename_i c rest hs
    simp only [Option.some.injEq, Prod.mk.injEq] at h
    have := (List.dropWhile_suffix (· != sep) (l := s)).length_le
    rw [hs, List.length_cons, h.2] at this
    omega

/-- Blank, tab, carriage return and line feed. -/
def isBlank (c : UInt8) : Bool :=
  c == ' '.toUInt8 || c == '\t'.toUInt8 || c == '\r'.toUInt8 || c == newline

/-- Drops the last bytes as long as they satisfy a test. -/
def dropEndWhile (p : UInt8 → Bool) (s : Bytes) : Bytes := (s.reverse.dropWhile p).reverse

def trim (s : Bytes) : Bytes := dropEndWhile isBlank (s.dropWhile isBlank)

end StakeQuorum.Bytes
