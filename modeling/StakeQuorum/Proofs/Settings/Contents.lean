import Mathlib.Data.List.Nodup
import StakeQuorum.Proofs.Settings.Lines

/-! # What settings hold

However settings are changed, an entry stands under its own key, in a section that is known, and
has a value. Such settings hold no more than their sections and the values under each key.
-/

namespace StakeQuorum.Settings

variable {s s' : Settings} {key key' heading heading' value source k name : Bytes} {line : Nat}
  {names : List Bytes} {e : Entry}

/-! ### Keys and headings -/

/-- What a key may stand under: the name of a section, or nothing. -/
def IsHeading (heading : Bytes) : Prop := heading = [] ∨ isKey heading

instance (heading : Bytes) : Decidable (IsHeading heading) :=
  inferInstanceAs (Decidable (_ ∨ _))

theorem cut?_fullKey (hk : isKey key) (hh : IsHeading heading) :
    Bytes.cut? dot (fullKey key heading) = if heading = [] then none else some (heading, key) := by
  rw [fullKey]
  rcases hh with rfl | hh
  · rw [if_pos rfl, if_pos rfl]
    exact Bytes.cut?_eq_none (not_mem_of_isKey (by decide) hk)
  · rw [if_neg (isKey_ne_nil hh), if_neg (isKey_ne_nil hh)]
    exact Bytes.cut?_append_cons (not_mem_of_isKey (by decide) hh) key

theorem fullKey_inj (hk : isKey key) (hh : IsHeading heading) (hk' : isKey key')
    (hh' : IsHeading heading') (h : fullKey key heading = fullKey key' heading') :
    key = key' ∧ heading = heading' := by
  have hcut := cut?_fullKey hk hh
  rw [h, cut?_fullKey hk' hh'] at hcut
  split at hcut <;> split at hcut
  · rename_i hn' hn
    subst hn hn'
    exact ⟨h, rfl⟩
  · cases hcut
  · cases hcut
  · cases hcut
    exact ⟨rfl, rfl⟩

/-! ### Well-formed settings -/

/-- An entry that stands where it belongs. -/
structure Entry.Placed (k : Bytes) (names : List Bytes) (e : Entry) : Prop where
  found : k = fullKey e.key e.heading
  named : isKey e.key
  known : e.heading = [] ∨ e.heading ∈ names
  filled : e.values ≠ []

structure WellFormed (s : Settings) : Prop where
  placed : ∀ k e, s.entries.get? k = some e → e.Placed k s.sections
  named : ∀ name ∈ s.sections, isKey name
  nodup : s.sections.Nodup

theorem Entry.Placed.mono (h : e.Placed k names) {names' : List Bytes} (hn : names ⊆ names') :
    e.Placed k names' :=
  ⟨h.found, h.named, h.known.imp_right (hn ·), h.filled⟩

theorem Entry.Placed.push (h : e.Placed k names) (value : Bytes) : (e.push value).Placed k names :=
  ⟨h.found, h.named, h.known, by simp⟩

theorem WellFormed.isHeading (h : s.WellFormed) (he : e.Placed k s.sections) :
    IsHeading e.heading :=
  he.known.imp_right (h.named _)

theorem wellFormed_empty : WellFormed {} where
  placed k e he := by
    have hnone : (none : Option Entry) = some e := he
    cases hnone
  named := by simp
  nodup := List.nodup_nil

@[simp] theorem entries_addSection (s : Settings) (name : Bytes) :
    (s.addSection name).entries = s.entries := by
  unfold addSection
  split <;> rfl

theorem sections_addSection (s : Settings) (name : Bytes) : (s.addSection name).sections =
    if name = [] ∨ name ∈ s.sections then s.sections else s.sections ++ [name] := by
  unfold addSection
  split <;> rfl

theorem addSection_of_mem (h : name = [] ∨ name ∈ s.sections) : s.addSection name = s := if_pos h

theorem subset_sections_addSection (s : Settings) (name : Bytes) :
    s.sections ⊆ (s.addSection name).sections := by
  rw [sections_addSection]
  split
  · exact List.Subset.refl _
  · exact List.subset_append_left _ _

theorem mem_sections_addSection (s : Settings) (name : Bytes) :
    name = [] ∨ name ∈ (s.addSection name).sections := by
  rw [sections_addSection]
  split
  · assumption
  · exact .inr (List.mem_append_right _ (List.mem_singleton_self name))

theorem WellFormed.addSection (h : s.WellFormed) (hn : IsHeading name) :
    (s.addSection name).WellFormed := by
  by_cases hm : name = [] ∨ name ∈ s.sections
  · rwa [addSection_of_mem hm]
  · have hs : (s.addSection name).sections = s.sections ++ [name] := by
      rw [sections_addSection, if_neg hm]
    rw [not_or] at hm
    refine ⟨?_, ?_, ?_⟩
    · intro k e he
      rw [entries_addSection] at he
      exact (h.placed k e he).mono (subset_sections_addSection s name)
    · intro name' hmem
      rw [hs, List.mem_append, List.mem_singleton] at hmem
      rcases hmem with hmem | rfl
      · exact h.named name' hmem
      · exact hn.resolve_left hm.1
    · rw [hs]
      exact h.nodup.append (List.nodup_singleton name) (by simpa using hm.2)

theorem get?_entries_record (s : Settings) (key heading value source : Bytes) (line : Nat)
    (k : Bytes) : (s.record key heading value source line).entries.get? k =
      if fullKey key heading = k then
        some (((s.entries.get? k).getD { key, heading, source, line }).push value)
      else s.entries.get? k := by
  rw [record, entries_addSection, ByteMap.get?_insert]
  split
  · rename_i hk
    rw [hk]
  · rfl

theorem sections_record (s : Settings) (key heading value source : Bytes) (line : Nat) :
    (s.record key heading value source line).sections = (s.addSection heading).sections := by
  rw [record, sections_addSection, sections_addSection]

theorem sections_set (s : Settings) (key value heading : Bytes) :
    (s.set key value heading).sections = (s.addSection heading).sections := by
  rw [set, sections_record, sections_addSection, sections_addSection, erase]

theorem sections_add (s : Settings) (key value heading : Bytes) :
    (s.add key value heading).sections = (s.addSection heading).sections :=
  sections_record s key heading value programmatic 0

theorem WellFormed.record (h : s.WellFormed) (hk : isKey key) (hh : IsHeading heading)
    (value source : Bytes) (line : Nat) :
    (s.record key heading value source line).WellFormed := by
  have hs := h.addSection hh
  have hsections := sections_record s key heading value source line
  refine ⟨?_, hsections ▸ hs.named, hsections ▸ hs.nodup⟩
  intro k e he
  rw [hsections]
  rw [get?_entries_record] at he
  split at he
  · rename_i hfound
    obtain rfl := Option.some.inj he
    cases hold : s.entries.get? k with
    | none => exact ⟨hfound.symm, hk, mem_sections_addSection s heading, by simp⟩
    | some old =>
      exact ((h.placed k old hold).mono (subset_sections_addSection s heading)).push value
  · exact (h.placed k e he).mono (subset_sections_addSection s heading)

theorem WellFormed.erase (h : s.WellFormed) (key heading : Bytes) :
    (s.erase key heading).WellFormed := by
  refine ⟨?_, h.named, h.nodup⟩
  intro k e he
  rw [Settings.erase, ByteMap.get?_erase] at he
  split at he
  · cases he
  · exact h.placed k e he

theorem WellFormed.set (h : s.WellFormed) (hk : isKey key) (hh : IsHeading heading)
    (value : Bytes) : (s.set key value heading).WellFormed :=
  (h.erase key heading).record hk hh value programmatic 0

theorem WellFormed.add (h : s.WellFormed) (hk : isKey key) (hh : IsHeading heading)
    (value : Bytes) : (s.add key value heading).WellFormed :=
  h.record hk hh value programmatic 0

/-! ### Reading -/

theorem Line.parseHeader_valid {s : Bytes} {l : Line} (h : parseHeader s = .ok l) : l.Valid := by
  unfold parseHeader at h
  split at h
  · cases h
  · dsimp only at h
    split at h
    · cases h
      assumption
    · cases h

theorem Line.parseAssignment_valid {env : Environment} {s : Bytes} {l : Line}
    (h : parseAssignment env s = .ok l) : l.Valid := by
  unfold parseAssignment at h
  split at h
  all_goals
    split at h
    · cases h
      assumption
    · cases h

theorem Line.parse_valid {env : Environment} {s : Bytes} {l : Line} (h : parse env s = .ok l) :
    l.Valid := by
  unfold parse at h
  split at h
  · cases h
  · split at h
    · cases h
      trivial
    · split at h
      · cases h
        trivial
      · split at h
        · exact parseHeader_valid h
        · exact parseAssignment_valid h

theorem WellFormed.readLines (h : s.WellFormed) (hh : IsHeading heading) (env : Environment)
    (source : Bytes) (ls : List Bytes) (n : Nat) :
    (readLines env source ls n heading s).2.WellFormed := by
  induction ls generalizing n heading s with
  | nil => exact h
  | cons l ls ih =>
    rw [Settings.readLines]
    cases hl : Line.parse env l with
    | error e => exact h
    | ok line =>
      have hv := Line.parse_valid hl
      cases line with
      | blank => exact ih h hh (n + 1)
      | header name => exact ih (h.addSection (.inr hv)) (.inr hv) (n + 1)
      | assignment key value => exact ih (h.record hv hh value source n) hh (n + 1)

theorem WellFormed.readText (h : s.WellFormed) (env : Environment) (text source : Bytes) :
    (s.readText env text source).2.WellFormed :=
  h.readLines (.inl rfl) env source (Bytes.lines text) 1

theorem WellFormed.readOptions (h : s.WellFormed) (arguments : List Bytes) (n : Nat)
    (warnings : List Bytes) : (readOptions arguments n warnings s).2.WellFormed := by
  induction arguments generalizing n warnings s with
  | nil => exact h
  | cons argument rest ih =>
    rw [Settings.readOptions]
    split
    · exact ih h _ _
    · split
      · exact ih h _ _
      · rename_i option _
        dsimp only
        split
        · rename_i hk
          rw [Bool.and_eq_true, Bool.or_eq_true, List.isEmpty_iff] at hk
          exact ih ((h.erase _ _).record hk.1 hk.2 _ _ _) _ _
        · exact h

theorem WellFormed.readArguments (h : s.WellFormed) (arguments : List Bytes) :
    (s.readArguments arguments).2.WellFormed :=
  h.readOptions arguments 1 []

/-! ### The values under each key -/

def valuesAt (s : Settings) (k : Bytes) : List Bytes := (s.entries.get? k).elim [] (·.values)

theorem valuesAt_record (s : Settings) (key heading value source : Bytes) (line : Nat) (k : Bytes) :
    (s.record key heading value source line).valuesAt k =
      s.valuesAt k ++ if fullKey key heading = k then [value] else [] := by
  rw [valuesAt, get?_entries_record, valuesAt]
  split
  · cases s.entries.get? k with
    | none => simp [Entry.push, Entry.values]
    | some e => simp
  · rw [List.append_nil]

theorem valuesAt_set (s : Settings) (key value heading k : Bytes) :
    (s.set key value heading).valuesAt k =
      if fullKey key heading = k then [value] else s.valuesAt k := by
  have herase : (s.erase key heading).valuesAt k =
      if fullKey key heading = k then [] else s.valuesAt k := by
    rw [valuesAt, erase, ByteMap.get?_erase, valuesAt]
    split <;> rfl
  rw [set, valuesAt_record, herase]
  split
  · rfl
  · rw [List.append_nil]

theorem valuesAt_add (s : Settings) (key value heading k : Bytes) :
    (s.add key value heading).valuesAt k =
      s.valuesAt k ++ if fullKey key heading = k then [value] else [] :=
  valuesAt_record s key heading value programmatic 0 k

def Entry.said (e : Entry) : Bytes × Bytes × List Bytes := (e.key, e.heading, e.values)

/-- The same sections in the same order, and the same values under the same keys. -/
structure Same (s s' : Settings) : Prop where
  sections : s.sections = s'.sections
  entries : ∀ k, (s.entries.get? k).map Entry.said = (s'.entries.get? k).map Entry.said

theorem WellFormed.same (h : s.WellFormed) (h' : s'.WellFormed)
    (hs : s.sections = s'.sections) (hv : ∀ k, s.valuesAt k = s'.valuesAt k) : Same s s' := by
  refine ⟨hs, fun k => ?_⟩
  have hk := hv k
  rw [valuesAt, valuesAt] at hk
  cases he : s.entries.get? k with
  | none =>
    cases he' : s'.entries.get? k with
    | none => rfl
    | some e' =>
      rw [he, he'] at hk
      exact absurd hk.symm (h'.placed k e' he').filled
  | some e =>
    have hp := h.placed k e he
    cases he' : s'.entries.get? k with
    | none =>
      rw [he, he'] at hk
      exact absurd hk hp.filled
    | some e' =>
      have hp' := h'.placed k e' he'
      rw [he, he'] at hk
      obtain ⟨hkey, hheading⟩ := fullKey_inj hp.named (h.isHeading hp) hp'.named
        (h'.isHeading hp') (hp.found.symm.trans hp'.found)
      have hvalues : e.values = e'.values := hk
      simp only [Option.map_some, Entry.said, hkey, hheading, hvalues]

end StakeQuorum.Settings
