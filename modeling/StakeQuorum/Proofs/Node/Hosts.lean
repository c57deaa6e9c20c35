import StakeQuorum.Node.Host
import StakeQuorum.Proofs.Settings.Values

/-! # The characters of hosts

A host consists of letters, digits, hyphens, dots and colons, unless a zero byte hides the rest of
it from the reader of addresses.
-/

namespace StakeQuorum

variable {s : Bytes}

namespace Bytes

theorem forall_mem_of_pieces {p : UInt8 → Prop} {sep : UInt8} (hsep : p sep)
    (h : ∀ q ∈ pieces sep s, ∀ c ∈ q, p c) : ∀ c ∈ s, p c := by
  induction s with
  | nil => simp
  | cons d s ih =>
    have hne := pieces_ne_nil sep s
    rw [pieces_cons] at h
    split at h
    · rename_i hd
      rw [List.forall_mem_cons] at h ⊢
      exact ⟨hd ▸ hsep, ih h.2⟩
    · obtain ⟨q, qs, hq⟩ := List.exists_cons_of_ne_nil hne
      simp only [hq, List.headD_cons, List.tail_cons, List.forall_mem_cons] at h ih ⊢
      exact ⟨h.1.1, ih ⟨h.1.2, h.2⟩⟩

theorem cut?_eq_some_iff {sep : UInt8} {a b : Bytes} :
    cut? sep s = some (a, b) ↔ s = a ++ sep :: b ∧ sep ∉ a := by
  refine ⟨fun h => ?_, fun ⟨hs, ha⟩ => hs ▸ cut?_append_cons ha b⟩
  unfold cut? at h
  split at h
  · cases h
  · rename_i c rest hs
    cases h
    have hc : (c != sep) = false := by
      have hhead := List.head?_dropWhile_not (· != sep) s
      rw [hs] at hhead
      simpa using hhead
    rw [bne_eq_false_iff_eq] at hc
    subst hc
    refine ⟨by rw [← hs, List.takeWhile_append_dropWhile], fun hmem => ?_⟩
    exact absurd (List.mem_takeWhile_imp hmem) (by simp)

end Bytes

namespace Node

open Bytes (pieces untilNul isDigit isAlphanumeric)

/-- What hosts consist of. -/
def isHostByte (c : UInt8) : Bool := isAlphanumeric c || ("-.:" : Bytes).contains c

theorem isHostByte_dot : isHostByte dot := by decide

theorem isHostByte_of_isDigit {c : UInt8} (h : isDigit c) : isHostByte c := by
  simp [isHostByte, isAlphanumeric, h]

theorem isHostByte_of_hex {c : UInt8} (h : Hex.isDigit c) : isHostByte c := by
  unfold Hex.isDigit Hex.digitValue? at h
  simp only [isHostByte, isAlphanumeric, Bytes.isLetter, Bytes.isLower, Bytes.isUpper,
    Bool.or_eq_true, Bool.and_eq_true, decide_eq_true_eq] at h ⊢
  left
  split at h
  · exact .inl ‹_›
  · split at h
    · rename_i hlower
      exact .inr (.inl ⟨hlower.1, UInt8.le_trans hlower.2 (by decide)⟩)
    · split at h
      · rename_i hupper
        exact .inr (.inr ⟨hupper.1, UInt8.le_trans hupper.2 (by decide)⟩)
      · cases h

theorem bytes_of_isAddress4 (h : isAddress4 s) : ∀ c ∈ s, isHostByte c := by
  rw [isAddress4, Bool.and_eq_true, List.all_eq_true] at h
  refine Bytes.forall_mem_of_pieces isHostByte_dot ?_
  intro q hq c hc
  have ho := h.2 q hq
  simp only [isOctet, Bool.and_eq_true, List.all_eq_true] at ho
  exact isHostByte_of_isDigit (ho.1.1.2 c hc)

theorem bytes_of_isGroup (h : isGroup s) : ∀ c ∈ s, isHostByte c := by
  simp only [isGroup, Bool.and_eq_true, List.all_eq_true] at h
  exact fun c hc => isHostByte_of_hex (h.2 c hc)

theorem bytes_of_groupsWidth? {gs : List Bytes} (h : (groupsWidth? gs).isSome) :
    ∀ g ∈ gs, ∀ c ∈ g, isHostByte c := by
  fun_induction groupsWidth? gs with
  | case1 => simp
  | case2 g hg => simpa using bytes_of_isGroup hg
  | case3 g hg h4 => simpa using bytes_of_isAddress4 h4
  | case4 => simp at h
  | case5 g gs hne hg ih =>
    rw [List.forall_mem_cons]
    exact ⟨bytes_of_isGroup hg, ih (by simpa using h)⟩
  | case6 => simp at h

theorem bytes_of_groups (h : ∀ g ∈ groups s, ∀ c ∈ g, isHostByte c) :
    ∀ c ∈ s, isHostByte c := by
  unfold groups at h
  split at h
  · rename_i he
    rw [List.isEmpty_iff] at he
    simp [he]
  · exact Bytes.forall_mem_of_pieces (by decide) h

theorem eq_append_of_cutGap? {a b : Bytes} (h : cutGap? s = some (a, b)) :
    s = a ++ colon :: colon :: b := by
  fun_induction cutGap? s generalizing a with
  | case1 c d s hc =>
    obtain ⟨rfl, rfl⟩ := hc
    cases h
    rfl
  | case2 c d s hc ih =>
    obtain ⟨⟨a', b'⟩, hcut, hab⟩ := Option.map_eq_some_iff.1 h
    cases hab
    rw [ih hcut, List.cons_append]
  | case3 => cases h

theorem bytes_of_isAddress6 (h : isAddress6 s) : ∀ c ∈ s, isHostByte c := by
  unfold isAddress6 at h
  split at h
  · refine bytes_of_groups (bytes_of_groupsWidth? ?_)
    rw [beq_iff_eq] at h
    rw [h]
    rfl
  · rename_i before rest hcut
    rw [Bool.and_eq_true, List.all_eq_true] at h
    have hbefore := bytes_of_groups fun g hg => bytes_of_isGroup (h.1 g hg)
    have hrest := bytes_of_groups (s := rest) (bytes_of_groupsWidth? (Option.isSome_of_any h.2))
    rw [eq_append_of_cutGap? hcut]
    simp only [List.forall_mem_append, List.forall_mem_cons]
    exact ⟨hbefore, by decide, by decide, hrest⟩

theorem bytes_of_isHostName (h : isHostName s) : ∀ c ∈ s, isHostByte c := by
  rw [isHostName, Bool.and_eq_true, List.all_eq_true] at h
  refine Bytes.forall_mem_of_pieces isHostByte_dot ?_
  intro q hq c hc
  have hl := h.2 q hq
  simp only [isLabel, Bool.and_eq_true, List.all_eq_true] at hl
  have hbyte := hl.2 c hc
  rw [Bool.or_eq_true, beq_iff_eq] at hbyte
  rcases hbyte with hbyte | rfl
  · rw [isHostByte, hbyte, Bool.true_or]
  · decide

theorem isHost_iff : isHost s ↔
    isAddress4 (untilNul s) ∨ isAddress6 (untilNul s) ∨ isHostName s := by
  rw [isHost, Bool.or_eq_true, Bool.or_eq_true, or_assoc]

/-! ### Zero bytes -/

theorem mem_of_mem_untilNul {c : UInt8} (h : c ∈ untilNul s) : c ∈ s :=
  (List.takeWhile_sublist _).subset h

theorem bytes_of_isHost (h : isHost s) : ∀ c ∈ untilNul s, isHostByte c := by
  rcases isHost_iff.1 h with h | h | h
  · exact bytes_of_isAddress4 h
  · exact bytes_of_isAddress6 h
  · exact fun c hc => bytes_of_isHostName h c (mem_of_mem_untilNul hc)

/-- Only a zero byte can hide other characters. -/
theorem forall_isHostByte_iff (h : ∀ c ∈ untilNul s, isHostByte c) :
    (∀ c ∈ s, isHostByte c) ↔ 0 ∉ s := by
  constructor
  · intro hs h0
    exact absurd (hs 0 h0) (by decide)
  · intro h0
    rwa [Bytes.untilNul_eq_self h0] at h

theorem ne_nil_of_isHost (h : isHost s) : s ≠ [] := by
  rintro rfl
  exact absurd h (by decide)

theorem colon_mem_of_isAddress6 (h : isAddress6 s) : colon ∈ s := by
  unfold isAddress6 at h
  split at h
  · by_contra hcolon
    unfold groups at h
    split at h
    · simp [groupsWidth?] at h
    · rw [Bytes.pieces_eq_singleton hcolon, groupsWidth?] at h
      split at h
      · simp at h
      · split at h <;> simp at h
  · rename_i before rest hcut
    rw [eq_append_of_cutGap? hcut]
    simp

end Node

end StakeQuorum
