import Mathlib.Data.List.Basic
import Mathlib.Data.List.TakeWhile
import StakeQuorum.Settings.Reading

/-! # Lines that are read as they are written

A header, and an assignment whose value is plain, mean the same after they are written and read. A
plain value survives trimming, unquoting and expansion.
-/

namespace StakeQuorum

namespace Bytes

variable {sep : UInt8} {s a t : Bytes}

/-! ### Classes of bytes -/

section

variable {p : UInt8 → Bool} {c d : UInt8}

theorem ne_of_class (hc : p c) (hd : p d = false) : c ≠ d := by
  rintro rfl
  rw [hc] at hd
  cases hd

theorem not_mem_of_class (h : ∀ c ∈ s, p c) (hd : p d = false) : d ∉ s :=
  fun hm => ne_of_class (h d hm) hd rfl

theorem isBlank_eq_false (hp : p ' '.toUInt8 = false ∧ p '\t'.toUInt8 = false ∧
    p '\r'.toUInt8 = false ∧ p newline = false) (hc : p c) : isBlank c = false := by
  obtain ⟨hblank, htab, hreturn, hnewline⟩ := hp
  simp only [isBlank, Bool.or_eq_false_iff, beq_eq_false_iff_ne]
  exact ⟨⟨⟨ne_of_class hc hblank, ne_of_class hc htab⟩, ne_of_class hc hreturn⟩,
    ne_of_class hc hnewline⟩

end

/-! ### Cutting and trimming -/

theorem cut?_eq_none (h : sep ∉ s) : cut? sep s = none := by
  have hs : s.dropWhile (· != sep) = [] := by
    rw [List.dropWhile_eq_nil_iff]
    intro c hc
    rw [bne_iff_ne]
    rintro rfl
    exact h hc
  rw [cut?, hs]

theorem dropWhile_eq_self {p : UInt8 → Bool} (h : s.head?.any p = false) : s.dropWhile p = s := by
  cases s with
  | nil => rfl
  | cons c s => exact List.dropWhile_cons_of_neg (by simpa using h)

theorem trim_eq_self (hf : s.head?.any isBlank = false) (hl : s.getLast?.any isBlank = false) :
    trim s = s := by
  have hr : s.reverse.head?.any isBlank = false := by rwa [List.head?_reverse]
  rw [trim, dropWhile_eq_self hf, dropEndWhile, dropWhile_eq_self hr, List.reverse_reverse]

/-! ### Lines of a text -/

theorem lines_append_cons (h : newline ∉ a) (t : Bytes) :
    lines (a ++ newline :: t) = a :: lines t := by
  have hp : pieces newline (a ++ newline :: t) = a :: pieces newline t := by
    simp [pieces_append h, pieces_cons]
  have hne := pieces_ne_nil newline t
  simp only [lines, terminated, hp, List.getLast?_cons, List.dropLast_cons_of_ne_nil hne]
  rw [List.getLast?_eq_some_getLast hne, Option.getD_some]
  split <;> rfl

theorem lines_flatMap {ls : List Bytes} (h : ∀ l ∈ ls, newline ∉ l) :
    lines (ls.flatMap (· ++ [newline])) = ls := by
  induction ls with
  | nil => rfl
  | cons l ls ih =>
    obtain ⟨hl, hls⟩ := List.forall_mem_cons.1 h
    rw [List.flatMap_cons, List.append_assoc, List.singleton_append, lines_append_cons hl, ih hls]

end Bytes

open Environment in
/-- A text in which no reference is closed stands for itself. -/
theorem Environment.expand_of_unclosed (env : Environment) {v : Bytes}
    (h : ∀ s ∈ v.tails, [dollar, openBrace] <+: s → closeBrace ∉ s) : env.expand v = v := by
  induction v with
  | nil => exact expand_nil env
  | cons c v ih =>
    obtain ⟨hv, htails⟩ := List.forall_mem_cons.1 h
    by_cases hc : c = dollar ∧ v.head? = some openBrace
    · obtain ⟨rfl, hbrace⟩ := hc
      obtain ⟨s, rfl⟩ := List.head?_eq_some_iff.1 hbrace
      have hclose := hv (List.prefix_append [dollar, openBrace] s)
      simp only [List.mem_cons, not_or] at hclose
      exact expand_unclosed env (Bytes.cut?_eq_none hclose.2.2)
    · rw [expand_cons env hc, ih htails]

namespace Settings

variable {key name v : Bytes}

/-! ### Keys -/

theorem isKey_ne_nil (h : isKey key) : key ≠ [] := by
  rintro rfl
  exact absurd h (by decide)

theorem isKey_singleton (h : isKey key) : ∀ c ∈ key, isKey [c] := by
  intro c hc
  simp only [isKey, Bool.and_eq_true, List.all_eq_true] at h ⊢
  exact ⟨rfl, List.forall_mem_singleton.2 (h.2 c hc)⟩

theorem not_mem_of_isKey {c : UInt8} (hc : isKey [c] = false) (h : isKey key) : c ∉ key :=
  Bytes.not_mem_of_class (isKey_singleton h) hc

theorem isBlank_eq_false_of_isKey (h : isKey key) : ∀ c ∈ key, Bytes.isBlank c = false :=
  fun c hc => Bytes.isBlank_eq_false (p := fun c => isKey [c]) (by decide) (isKey_singleton h c hc)

theorem trim_eq_self_of_isKey (h : isKey key) : Bytes.trim key = key := by
  have hblank := isBlank_eq_false_of_isKey h
  refine Bytes.trim_eq_self ?_ ?_ <;> rw [Option.any_eq_false]
  · exact fun c hc => hblank c (List.mem_of_mem_head? hc)
  · exact fun c hc => hblank c (List.mem_of_getLast? hc)

/-! ### Plain values -/

/-- A value that is written and read as it is. -/
structure Plain (v : Bytes) : Prop where
  oneLine : Bytes.newline ∉ v
  first : v.head?.any Bytes.isBlank = false
  last : v.getLast?.any Bytes.isBlank = false
  bare : 2 ≤ v.length → v.head? = v.getLast? →
    v.head? ≠ some doubleQuote ∧ v.head? ≠ some singleQuote
  unclosed : ∀ s ∈ v.tails, [Environment.dollar, Environment.openBrace] <+: s →
    Environment.closeBrace ∉ s

instance (v : Bytes) : Decidable (Plain v) :=
  decidable_of_iff (Bytes.newline ∉ v ∧ v.head?.any Bytes.isBlank = false ∧
      v.getLast?.any Bytes.isBlank = false ∧ (2 ≤ v.length → v.head? = v.getLast? →
        v.head? ≠ some doubleQuote ∧ v.head? ≠ some singleQuote) ∧
      ∀ s ∈ v.tails, [Environment.dollar, Environment.openBrace] <+: s →
        Environment.closeBrace ∉ s)
    ⟨fun ⟨h₁, h₂, h₃, h₄, h₅⟩ => ⟨h₁, h₂, h₃, h₄, h₅⟩,
      fun h => ⟨h.oneLine, h.first, h.last, h.bare, h.unclosed⟩⟩

theorem Plain.unquote_eq_self (h : Plain v) : unquote v = v := by
  unfold unquote
  split
  · rfl
  · rename_i hv
    rw [not_or, Nat.not_lt, not_not] at hv
    obtain ⟨hd, hs⟩ := h.bare hv.1 hv.2
    simp only [if_neg hd, if_neg hs]

theorem Plain.read_eq_self (h : Plain v) (env : Environment) :
    env.expand (unquote (Bytes.trim v)) = v := by
  rw [Bytes.trim_eq_self h.first h.last, h.unquote_eq_self, env.expand_of_unclosed h.unclosed]

/-! ### Lines -/

namespace Line

def render : Line → Bytes
  | blank => []
  | header name => openBracket :: (name ++ [closeBracket])
  | assignment key value => key ++ equalsSign :: value

def Valid : Line → Prop
  | blank => True
  | header name => isKey name
  | assignment key _ => isKey key

/-- A valid line whose value is plain. -/
structure Plain (l : Line) : Prop where
  valid : l.Valid
  value : ∀ key value, l = assignment key value → Settings.Plain value

variable {l : Line}

theorem Plain.newline_not_mem (h : l.Plain) : Bytes.newline ∉ l.render := by
  cases l with
  | blank => exact List.not_mem_nil
  | header name =>
    have hn := not_mem_of_isKey (c := Bytes.newline) (by decide) h.valid
    simp only [render, List.mem_cons, List.mem_append, List.not_mem_nil, or_false, not_or]
    exact ⟨by decide, hn, by decide⟩
  | assignment key value =>
    have hk := not_mem_of_isKey (c := Bytes.newline) (by decide) h.valid
    simp only [render, List.mem_append, List.mem_cons, not_or]
    exact ⟨hk, by decide, (h.value key value rfl).oneLine⟩

theorem parse_cons (env : Environment) {c : UInt8} {s : Bytes}
    (hs : (c :: s).length ≤ longestLine) (ht : Bytes.trim (c :: s) = c :: s)
    (hc : isComment c = false) : parse env (c :: s) =
      if c = openBracket then parseHeader s else parseAssignment env (c :: s) := by
  simp only [parse, if_neg (Nat.not_lt.2 hs), ht, hc, Bool.false_eq_true, if_false]

theorem parseHeader_append (h : isKey name) :
    parseHeader (name ++ [closeBracket]) = .ok (.header name) := by
  have hcut := Bytes.cut?_append_cons (not_mem_of_isKey (c := closeBracket) (by decide) h) []
  simp only [parseHeader, hcut, trim_eq_self_of_isKey h, h, if_true]

theorem parseAssignment_append (env : Environment) (hk : isKey key) (hv : Settings.Plain v) :
    parseAssignment env (key ++ equalsSign :: v) = .ok (.assignment key v) := by
  have hcut := Bytes.cut?_append_cons (not_mem_of_isKey (c := equalsSign) (by decide) hk) v
  simp only [parseAssignment, hcut, trim_eq_self_of_isKey hk, hv.read_eq_self env, hk, if_true]

theorem Plain.trim_render (h : l.Plain) : Bytes.trim l.render = l.render := by
  cases l with
  | blank => rfl
  | header name =>
    apply Bytes.trim_eq_self
    · rw [render, List.head?_cons]
      decide
    · rw [render, ← List.cons_append, List.getLast?_concat]
      decide
  | assignment key value =>
    obtain ⟨c, rest, rfl⟩ := List.exists_cons_of_ne_nil (isKey_ne_nil h.valid)
    apply Bytes.trim_eq_self
    · exact isBlank_eq_false_of_isKey h.valid c List.mem_cons_self
    · rw [render, List.getLast?_append_cons]
      rcases value.eq_nil_or_concat with rfl | ⟨value, d, rfl⟩
      · decide
      · have hlast := (h.value _ _ rfl).last
        rw [List.concat_eq_append, List.getLast?_concat] at hlast
        rwa [List.concat_eq_append, ← List.cons_append, List.getLast?_concat]

/-- A line that is written is read as what it says, whatever the variables are. -/
theorem Plain.parse_render (h : l.Plain) (hs : l.render.length ≤ longestLine)
    (env : Environment) : parse env l.render = .ok l := by
  have ht := h.trim_render
  cases l with
  | blank => rfl
  | header name =>
    rw [render] at ht hs ⊢
    rw [parse_cons env hs ht (by decide), if_pos rfl, parseHeader_append h.valid]
  | assignment key value =>
    obtain ⟨c, rest, rfl⟩ := List.exists_cons_of_ne_nil (isKey_ne_nil h.valid)
    have hc {d : UInt8} (hd : isKey [d] = false) : c ≠ d :=
      Bytes.ne_of_class (p := fun c => isKey [c])
        (isKey_singleton h.valid c List.mem_cons_self) hd
    have hcomment : isComment c = false := by
      simp only [isComment, Bool.or_eq_false_iff, beq_eq_false_iff_ne]
      exact ⟨hc (by decide), hc (by decide)⟩
    rw [render, List.cons_append] at ht hs ⊢
    have hopen : c ≠ openBracket := hc (by decide)
    rw [parse_cons env hs ht hcomment, if_neg hopen, ← List.cons_append,
      parseAssignment_append env h.valid (h.value _ _ rfl)]

end Line

end Settings

end StakeQuorum
