import Mathlib.Data.List.TakeWhile
import StakeQuorum.Proofs.Settings.Contents

/-! # Values that are read as they were meant

Numbers and flags that were written are read as the same numbers and flags, and settings are looked
up by the values under a key.
-/

namespace StakeQuorum

namespace Bytes

variable {sep : UInt8} {s : Bytes}

theorem untilNul_eq_self (h : 0 ∉ s) : untilNul s = s := by
  rw [untilNul, List.takeWhile_eq_self_iff]
  intro c hc
  rw [bne_iff_ne]
  rintro rfl
  exact h hc

theorem pieces_eq_singleton (h : sep ∉ s) : pieces sep s = [s] := by
  simpa using pieces_append h []

/-! ### Decimal digits -/

theorem toNat_bounds_of_isDigit {c : Char} (h : c.isDigit) : 48 ≤ c.toNat ∧ c.toNat ≤ 57 := by
  simp only [Char.isDigit, Bool.and_eq_true, decide_eq_true_eq] at h
  exact h

theorem toNat_toUInt8 {c : Char} (h : c.isDigit) : c.toUInt8.toNat = c.toNat := by
  have hc := toNat_bounds_of_isDigit h
  rw [Char.toUInt8, UInt32.toNat_toUInt8]
  exact Nat.mod_eq_of_lt (by rw [← Char.toNat]; omega)

theorem isDigit_of_mem_decimal {n : Nat} {d : UInt8} (h : d ∈ decimal n) : isDigit d := by
  obtain ⟨c, hc, rfl⟩ := List.mem_map.1 h
  have hd := Nat.isDigit_of_mem_toDigits (by omega) (by omega) hc
  have hb := toNat_bounds_of_isDigit hd
  simp only [isDigit, Bool.and_eq_true, decide_eq_true_eq, UInt8.le_iff_toNat_le,
    toNat_toUInt8 hd]
  exact hb

theorem decimal_ne_nil (n : Nat) : decimal n ≠ [] := by
  simp [decimal, Nat.toDigits_ne_nil]

end Bytes

namespace Settings

open Bytes (decimal)

variable {s s' : Settings} {key heading v : Bytes}

theorem ofDigits_decimal (n : Nat) : ofDigits (decimal n) = n := by
  have hfold (cs : List Char) (hcs : ∀ c ∈ cs, c.isDigit) (m : Nat) :
      (cs.map Char.toUInt8).foldl (fun n d => 10 * n + (d - '0'.toUInt8).toNat) m =
        Nat.ofDigitChars 10 cs m := by
    induction cs generalizing m with
    | nil => rfl
    | cons c cs ih =>
      obtain ⟨hc, hcs⟩ := List.forall_mem_cons.1 hcs
      have hb := Bytes.toNat_bounds_of_isDigit hc
      have hle : '0'.toUInt8 ≤ c.toUInt8 := by
        rw [UInt8.le_iff_toNat_le, Bytes.toNat_toUInt8 hc]
        exact hb.1
      rw [List.map_cons, List.foldl_cons, ih hcs, Nat.ofDigitChars_cons,
        UInt8.toNat_sub_of_le _ _ hle, Bytes.toNat_toUInt8 hc]
      rfl
  rw [ofDigits, decimal, hfold _ fun c hc => Nat.isDigit_of_mem_toDigits (by omega) (by omega) hc]
  exact Nat.ofDigitChars_toDigits (by omega) (by omega)

theorem isSpace_eq_false_of_isDigit {c : UInt8} (h : Bytes.isDigit c) : isSpace c = false := by
  simp only [Bytes.isDigit, Bool.and_eq_true, decide_eq_true_eq, UInt8.le_iff_toNat_le] at h
  have hzero : '0'.toUInt8.toNat = 48 := rfl
  have hreturn : '\r'.toUInt8.toNat = 13 := rfl
  simp only [isSpace, Bool.or_eq_false_iff, Bool.and_eq_false_iff, decide_eq_false_iff_not,
    beq_eq_false_iff_ne, UInt8.le_iff_toNat_le]
  constructor
  · rintro rfl
    exact absurd h.1 (by decide)
  · right
    omega

theorem int?_of_sign (negative : Bool) (m : Nat) {n : Int64} (h0 : 0 ∉ v)
    (hspace : v.head?.any isSpace = false) (hsign : sign v = (negative, decimal m))
    (hn : n.toInt = if negative then -(m : Int) else m) : int? v = some n := by
  have hdigits : (decimal m).all Bytes.isDigit := by
    rw [List.all_eq_true]
    exact fun d hd => Bytes.isDigit_of_mem_decimal hd
  rw [int?, Bytes.untilNul_eq_self h0, Bytes.dropWhile_eq_self hspace, hsign]
  simp only [Bytes.decimal_ne_nil, hdigits, Bool.not_true, Bool.false_eq_true, or_self, if_false,
    ofDigits_decimal, ← hn]
  rw [if_pos ⟨n.minValue_le_toInt, n.toInt_le⟩, Int64.ofInt_toInt]

theorem int?_ofSignedWord (n : Int64) : int? (Bytes.ofSignedWord n) = some n := by
  have hdigits (d : UInt8) (hd : d ∈ decimal n.toInt.natAbs) : Bytes.isDigit d :=
    Bytes.isDigit_of_mem_decimal hd
  have h0 : 0 ∉ decimal n.toInt.natAbs := Bytes.not_mem_of_class hdigits (by decide)
  rw [Bytes.ofSignedWord, Bytes.signedDecimal]
  split
  · refine int?_of_sign true n.toInt.natAbs ?_ ?_ rfl ?_
    · rw [List.mem_cons, not_or]
      exact ⟨by decide, h0⟩
    · rw [List.head?_cons]
      decide
    · rw [if_pos rfl]
      omega
  · obtain ⟨c, rest, hc⟩ := List.exists_cons_of_ne_nil (Bytes.decimal_ne_nil n.toInt.natAbs)
    have hdigit : Bytes.isDigit c := hdigits c (hc ▸ List.mem_cons_self)
    refine int?_of_sign false n.toInt.natAbs h0 ?_ ?_ ?_
    · rw [hc]
      exact isSpace_eq_false_of_isDigit hdigit
    · rw [hc, sign, List.head?_cons, if_neg, if_neg]
      · simpa using Bytes.ne_of_class hdigit (by decide)
      · simpa using Bytes.ne_of_class hdigit (by decide)
    · rw [if_neg Bool.false_ne_true]
      omega

theorem toInt_ofNat_of_le {n : Nat} (h : n ≤ Int64.maxValue.toInt) :
    (Int64.ofNat n).toInt = n := by
  rw [Int64.toInt_maxValue] at h
  exact Int64.toInt_ofNat_of_lt (by omega)

theorem int?_decimal {n : Nat} (h : n ≤ Int64.maxValue.toInt) :
    int? (decimal n) = some (Int64.ofNat n) := by
  have hn : Bytes.ofSignedWord (Int64.ofNat n) = decimal n := by
    rw [Bytes.ofSignedWord, toInt_ofNat_of_le h, Bytes.signedDecimal, if_neg (by omega),
      Int.natAbs_natCast]
  rw [← hn, int?_ofSignedWord]

theorem items_eq_singleton (hc : ','.toUInt8 ∉ v) (ht : Bytes.trim v = v) (hv : v ≠ []) :
    items v = [v] := by
  rw [items, Bytes.pieces_eq_singleton hc, List.map_singleton, ht]
  exact List.filter_cons_of_pos (by simpa using hv)

/-! ### Looking up -/

theorem get?_eq_getLast?_valuesAt (s : Settings) (key heading : Bytes) :
    s.get? key heading = (s.valuesAt (fullKey key heading)).getLast? := by
  rw [get?, entry?, valuesAt]
  cases s.entries.get? (fullKey key heading) <;> simp

theorem getList_eq_flatMap_valuesAt (s : Settings) (key heading : Bytes) :
    s.getList key heading = (s.valuesAt (fullKey key heading)).flatMap items := rfl

theorem contains_of_valuesAt (h : s.valuesAt (fullKey key heading) ≠ []) :
    s.contains key heading := by
  rw [contains, entry?]
  cases hs : s.entries.get? (fullKey key heading) with
  | none => exact absurd (by rw [valuesAt, hs, Option.elim_none]) h
  | some e => rfl

theorem WellFormed.contains_of_valuesAt_eq_nil (h : s.WellFormed)
    (hv : s.valuesAt (fullKey key heading) = []) : s.contains key heading = false := by
  rw [contains, entry?]
  cases hs : s.entries.get? (fullKey key heading) with
  | none => rfl
  | some e =>
    rw [valuesAt, hs, Option.elim_some] at hv
    exact absurd hv (h.placed _ e hs).filled

theorem WellFormed.exists_get?_of_contains (h : s.WellFormed) (hc : s.contains key heading) :
    ∃ v, s.get? key heading = some v := by
  obtain ⟨e, he⟩ := Option.isSome_iff_exists.1 hc
  have hfilled : e.values ≠ [] := (h.placed _ e he).filled
  exact ⟨e.values.getLast hfilled, by simp [get?, he, List.getLast?_eq_some_getLast hfilled]⟩

theorem get?_of_contains_eq_false (hc : s.contains key heading = false) :
    s.get? key heading = none := by
  have hnone : s.entry? key heading = none := by simpa [contains] using hc
  rw [get?, hnone, Option.bind_none]

theorem WellFormed.hasSection_of_contains (h : s.WellFormed) (hk : isKey key) (hh : isKey heading)
    (hc : s.contains key heading) : s.hasSection heading := by
  obtain ⟨e, he⟩ := Option.isSome_iff_exists.1 hc
  have hp := h.placed _ e he
  obtain ⟨-, rfl⟩ := fullKey_inj hk (.inr hh) hp.named (h.isHeading hp) hp.found
  exact List.elem_eq_true_of_mem (hp.known.resolve_left (isKey_ne_nil hh))

theorem getWord?_of_get? {n : UInt64} (h : s.get? key heading = some (Bytes.ofWord n))
    (hn : n.toNat ≤ Int64.maxValue.toInt) : s.getWord? key heading = some n := by
  have hpos : ¬ Int64.ofNat n.toNat < 0 := by
    rw [Int64.lt_iff_toInt_lt, toInt_ofNat_of_le hn]
    simp
  rw [getWord?, getInt?, h, Option.bind_some, int?_decimal hn, Option.bind_some, if_neg hpos,
    Int64.toUInt64_ofNat', UInt64.ofNat_toNat]

theorem Same.wellFormed (h : Same s s') (hs : s.WellFormed) : s'.WellFormed := by
  refine ⟨fun k e' he' => ?_, h.sections ▸ hs.named, h.sections ▸ hs.nodup⟩
  have hk := h.entries k
  rw [he', Option.map_some, Option.map_eq_some_iff] at hk
  obtain ⟨e, he, hsaid⟩ := hk
  have hp := hs.placed k e he
  simp only [Entry.said, Prod.mk.injEq] at hsaid
  obtain ⟨hkey, hheading, hvalues⟩ := hsaid
  rw [← h.sections]
  exact ⟨hkey ▸ hheading ▸ hp.found, hkey ▸ hp.named, hheading ▸ hp.known, hvalues ▸ hp.filled⟩

theorem Same.valuesAt (h : Same s s') (k : Bytes) : s.valuesAt k = s'.valuesAt k := by
  have hk := h.entries k
  unfold Settings.valuesAt
  cases hs : s.entries.get? k <;> cases hs' : s'.entries.get? k
  · rfl
  · simp [hs, hs'] at hk
  · simp [hs, hs'] at hk
  · simp only [hs, hs', Option.map_some, Entry.said, Option.some.injEq, Prod.mk.injEq] at hk
    exact hk.2.2

end Settings

end StakeQuorum
