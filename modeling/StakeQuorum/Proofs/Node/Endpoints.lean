import StakeQuorum.Proofs.Node.Hosts

/-! # How endpoints are spelled

An endpoint is accepted exactly if it spells a host and a port, with brackets around a host that
holds a colon. The host consists of the characters of hosts as long as no zero byte hides others.
-/

namespace StakeQuorum.Node

open Bytes (cut? untilNul isDigit)

variable {s host digits : Bytes} {port : UInt16} {e : Endpoint}

/-! ### Ports -/

/-- One to five decimal digits and the port that they denote. -/
structure Denotes (digits : Bytes) (port : UInt16) : Prop where
  some_digit : 1 ≤ digits.length
  five_digits : digits.length ≤ 5
  decimal : ∀ c ∈ digits, isDigit c
  value : Settings.ofDigits digits = port.toNat

theorem port?_eq_some_iff : port? digits = some port ↔ Denotes digits port ∧ port ≠ 0 := by
  simp only [port?, Option.ite_none_right_eq_some, Option.some.injEq, Bool.and_eq_true,
    Bool.not_eq_true', List.isEmpty_eq_false_iff, ← List.length_pos_iff, decide_eq_true_eq,
    List.all_eq_true, bne_iff_ne]
  constructor
  · rintro ⟨⟨⟨⟨⟨hpos, hshort⟩, hdigits⟩, hzero⟩, hmax⟩, rfl⟩
    have hvalue : (UInt16.ofNat (Settings.ofDigits digits)).toNat = Settings.ofDigits digits :=
      UInt16.toNat_ofNat_of_lt (by rw [UInt16.size]; omega)
    refine ⟨⟨hpos, hshort, hdigits, hvalue.symm⟩, fun h => hzero ?_⟩
    rw [← hvalue, h]
    rfl
  · rintro ⟨h, hzero⟩
    have hmax := port.toNat_lt
    rw [h.value]
    refine ⟨⟨⟨⟨⟨h.some_digit, h.five_digits⟩, h.decimal⟩, fun h0 => hzero ?_⟩, by omega⟩,
      UInt16.ofNat_toNat⟩
    exact UInt16.toNat_inj.1 h0

theorem Denotes.not_mem (h : Denotes digits port) {c : UInt8} (hc : isDigit c = false) :
    c ∉ digits := fun hmem => by simp [h.decimal c hmem] at hc

/-! ### Endpoints -/

namespace Endpoint

/-- A host as it stands in an endpoint. -/
def enclose (host : Bytes) : Bytes :=
  if colon ∈ host then '['.toUInt8 :: host ++ [']'.toUInt8] else host

/-- A text that consists of a host and a port. -/
def Spells (s : Bytes) (e : Endpoint) : Prop :=
  ∃ digits, s = enclose e.host ++ colon :: digits ∧ Denotes digits e.port

/-- What can stand before the port: an address of version six in brackets, or else any host. -/
def IsHostPart (host : Bytes) : Prop :=
  if colon ∈ host then isAddress6 (untilNul host) ∧ ']'.toUInt8 ∉ host else isHost host

theorem IsHostPart.bytes (h : IsHostPart host) : ∀ c ∈ untilNul host, isHostByte c := by
  unfold IsHostPart at h
  split at h
  · exact bytes_of_isAddress6 h.1
  · exact bytes_of_isHost h

theorem IsHostPart.ne_nil (h : IsHostPart host) : host ≠ [] := by
  unfold IsHostPart at h
  split at h
  · rename_i hcolon
    exact List.ne_nil_of_mem hcolon
  · exact ne_nil_of_isHost h

end Endpoint

theorem cutBracketed?_eq_some_iff : cutBracketed? s = some (host, digits) ↔
    s = host ++ ']'.toUInt8 :: colon :: digits ∧ ']'.toUInt8 ∉ host ∧
      isAddress6 (untilNul host) := by
  simp only [cutBracketed?, Option.bind_eq_bind, Option.bind_eq_some_iff, Prod.exists,
    Option.ite_none_right_eq_some, Option.some.injEq, Prod.mk.injEq, Bytes.cut?_eq_some_iff,
    List.head?_eq_some_iff]
  constructor
  · rintro ⟨host, rest, ⟨rfl, hhost⟩, ⟨⟨digits, rfl⟩, h6⟩, rfl, rfl⟩
    exact ⟨rfl, hhost, h6⟩
  · rintro ⟨rfl, hhost, h6⟩
    exact ⟨host, colon :: digits, ⟨rfl, hhost⟩, ⟨⟨digits, rfl⟩, h6⟩, rfl, rfl⟩

theorem cutPlain?_eq_some_iff : cutPlain? s = some (host, digits) ↔
    s = host ++ colon :: digits ∧ colon ∉ host ∧ colon ∉ digits ∧ isHost host := by
  simp only [cutPlain?, Option.bind_eq_bind, Option.bind_eq_some_iff, Prod.exists,
    Option.ite_none_right_eq_some, Option.some.injEq, Prod.mk.injEq, Bytes.cut?_eq_some_iff]
  constructor
  · rintro ⟨host, digits, ⟨rfl, hhost⟩, ⟨hdigits, h⟩, rfl, rfl⟩
    exact ⟨rfl, hhost, hdigits, h⟩
  · rintro ⟨rfl, hhost, hdigits, h⟩
    exact ⟨host, digits, ⟨rfl, hhost⟩, ⟨hdigits, h⟩, rfl, rfl⟩

namespace Endpoint

theorem parse?_eq_some_iff_cut : parse? s = some e ↔ ∃ digits,
    (if s.head? = some '['.toUInt8 then cutBracketed? s.tail else cutPlain? s) =
      some (e.host, digits) ∧ Denotes digits e.port ∧ e.port ≠ 0 := by
  obtain ⟨host, port⟩ := e
  simp only [← port?_eq_some_iff]
  unfold parse?
  split <;> simp [Option.bind_eq_some_iff]

theorem parse?_eq_some_iff : parse? s = some e ↔ Spells s e ∧ e.port ≠ 0 ∧ IsHostPart e.host := by
  obtain ⟨host, port⟩ := e
  simp only [parse?_eq_some_iff_cut, Spells, IsHostPart, enclose]
  constructor
  · rintro ⟨digits, hcut, hport, hzero⟩
    split at hcut
    · rename_i hbracket
      obtain ⟨rest, rfl⟩ := List.head?_eq_some_iff.1 hbracket
      obtain ⟨rfl, hhost, h6⟩ := cutBracketed?_eq_some_iff.1 hcut
      have hcolon := mem_of_mem_untilNul (colon_mem_of_isAddress6 h6)
      rw [if_pos hcolon, if_pos hcolon]
      exact ⟨⟨digits, by simp, hport⟩, hzero, h6, hhost⟩
    · obtain ⟨rfl, hcolon, -, hhost⟩ := cutPlain?_eq_some_iff.1 hcut
      rw [if_neg hcolon, if_neg hcolon]
      exact ⟨⟨digits, rfl, hport⟩, hzero, hhost⟩
  · rintro ⟨⟨digits, rfl, hport⟩, hzero, hhost⟩
    refine ⟨digits, ?_, hport, hzero⟩
    by_cases hcolon : colon ∈ host
    · rw [if_pos hcolon] at hhost ⊢
      rw [List.cons_append, List.cons_append, List.head?_cons, if_pos rfl, List.tail_cons,
        cutBracketed?_eq_some_iff]
      exact ⟨by simp, hhost.2, hhost.1⟩
    · rw [if_neg hcolon] at hhost ⊢
      -- a host that starts with a bracket would show it before its first zero byte
      have hbracket : (host ++ colon :: digits).head? ≠ some '['.toUInt8 := by
        obtain ⟨c, rest, rfl⟩ := List.exists_cons_of_ne_nil (ne_nil_of_isHost hhost)
        rw [List.cons_append, List.head?_cons, ne_eq, Option.some.injEq]
        rintro rfl
        have hmem : '['.toUInt8 ∈ untilNul ('['.toUInt8 :: rest) := List.mem_cons_self
        exact absurd (bytes_of_isHost hhost _ hmem) (by decide)
      rw [if_neg hbracket, cutPlain?_eq_some_iff]
      exact ⟨rfl, hcolon, hport.not_mem (by decide), hhost⟩

/-! ### Characters -/

theorem zero_mem_iff (h : Spells s e) : 0 ∈ s ↔ 0 ∈ e.host := by
  obtain ⟨digits, rfl, hport⟩ := h
  have h0 : 0 ∉ digits := hport.not_mem (by decide)
  have hcolon : (0 : UInt8) ≠ colon := by decide
  have hopen : (0 : UInt8) ≠ '['.toUInt8 := by decide
  have hclose : (0 : UInt8) ≠ ']'.toUInt8 := by decide
  unfold enclose
  split <;> simp [h0, hcolon, hopen, hclose]

theorem readInto_eq_iff {old : Endpoint} {accepted : Bool} : old.readInto s = (accepted, e) ↔
    if accepted then parse? s = some e else parse? s = none ∧ e = old := by
  rw [readInto]
  cases parse? s <;> cases accepted <;> simp [eq_comm]

/-- What is accepted spells a host and a port, and what is refused leaves the old endpoint. The
host consists of the characters of hosts exactly if the text has no zero byte. -/
theorem spells_and_clean_iff (s : Bytes) (old : Endpoint) :
    (∀ e, old.readInto s = (true, e) ↔ Spells s e ∧ e.port ≠ 0 ∧ IsHostPart e.host) ∧
      (∀ e, old.readInto s = (true, e) →
        e.host ≠ [] ∧ ((∀ c ∈ e.host, isHostByte c) ↔ 0 ∉ s)) ∧
      (∀ e, old.readInto s = (false, e) → e = old) ∧
      (isHost s → ((∀ c ∈ s, isHostByte c) ↔ 0 ∉ s)) := by
  have haccepted (e : Endpoint) :
      old.readInto s = (true, e) ↔ Spells s e ∧ e.port ≠ 0 ∧ IsHostPart e.host := by
    rw [readInto_eq_iff, if_pos rfl, parse?_eq_some_iff]
  refine ⟨haccepted, fun e he => ?_, fun e he => ?_, fun h => ?_⟩
  · obtain ⟨hspells, -, hhost⟩ := (haccepted e).1 he
    rw [zero_mem_iff hspells]
    exact ⟨hhost.ne_nil, forall_isHostByte_iff hhost.bytes⟩
  · rw [readInto_eq_iff, if_neg Bool.false_ne_true] at he
    exact he.2
  · exact forall_isHostByte_iff (bytes_of_isHost h)

/-- A loopback address in brackets is accepted, but not with port zero. -/
theorem spells_and_clean_iff_loopback :
    let old : Endpoint := ⟨"unchanged", 7⟩
    old.readInto "[::1]:80" = (true, ⟨"::1", 80⟩) ∧ Spells "[::1]:80" ⟨"::1", 80⟩ ∧
      (∀ c ∈ ("::1" : Bytes), isHostByte c) ∧
      ∃ e, old.readInto "[::1]:0" = (false, e) ∧ e = old := by
  intro old
  have hread : old.readInto "[::1]:80" = (true, ⟨"::1", 80⟩) := by decide
  obtain ⟨haccepted, hclean, -, -⟩ := spells_and_clean_iff "[::1]:80" old
  obtain ⟨-, -, hrefused, -⟩ := spells_and_clean_iff "[::1]:0" old
  exact ⟨hread, ((haccepted _).1 hread).1, (hclean _ hread).2.2 (by decide), _, rfl,
    hrefused _ rfl⟩

/-- Whatever follows a zero byte is taken for a part of the host. -/
theorem not_clean_hiddenPath :
    (⟨"unchanged", 7⟩ : Endpoint).readInto "[::1\x00/x]:80" = (true, ⟨"::1\x00/x", 80⟩) ∧
      (¬ ∀ c ∈ ("::1\x00/x" : Bytes), isHostByte c) ∧
      isHost "127.0.0.1\x00/x" ∧ ¬ ∀ c ∈ ("127.0.0.1\x00/x" : Bytes), isHostByte c := by
  decide

end Endpoint

def isEndpointByte (c : UInt8) : Bool := isHostByte c || ("[]" : Bytes).contains c

theorem isEndpointByte_of_isHostByte {c : UInt8} (h : isHostByte c) : isEndpointByte c := by
  rw [isEndpointByte, h, Bool.true_or]

/-- An endpoint can be written into a list, whose items are separated by commas. -/
theorem bytes_of_endpoint (h0 : 0 ∉ s) (h : (Endpoint.parse? s).isSome) :
    ∀ c ∈ s, isEndpointByte c := by
  obtain ⟨e, h⟩ := Option.isSome_iff_exists.1 h
  obtain ⟨hspells, -, hhost⟩ := Endpoint.parse?_eq_some_iff.1 h
  rw [Endpoint.zero_mem_iff hspells] at h0
  have hbytes : ∀ c ∈ e.host, isEndpointByte c := fun c hc =>
    isEndpointByte_of_isHostByte ((forall_isHostByte_iff hhost.bytes).2 h0 c hc)
  obtain ⟨digits, rfl, hport⟩ := hspells
  have hdigits : ∀ c ∈ digits, isEndpointByte c := fun c hc =>
    isEndpointByte_of_isHostByte (isHostByte_of_isDigit (hport.decimal c hc))
  unfold Endpoint.enclose
  split
  · simp only [List.cons_append, List.append_assoc, List.nil_append, List.forall_mem_cons,
      List.forall_mem_append]
    exact ⟨by decide, hbytes, by decide, by decide, hdigits⟩
  · simp only [List.forall_mem_cons, List.forall_mem_append]
    exact ⟨hbytes, by decide, hdigits⟩

end StakeQuorum.Node
