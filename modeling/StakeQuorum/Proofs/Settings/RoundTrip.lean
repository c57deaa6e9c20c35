import StakeQuorum.Proofs.Settings.Contents
import StakeQuorum.Proofs.Store.Contents

/-! # Settings that are written and read again

The text of settings is read as the same settings: the lines of a section follow its header, so
each value is recorded under the key that it came from, in the order in which it was written.
-/

namespace StakeQuorum

theorem flatMap_eq_of_unique {α β : Type} {l : List α} {f : α → List β} {a : α} (hl : l.Nodup)
    (ha : a ∈ l) (h : ∀ b ∈ l, b ≠ a → f b = []) : l.flatMap f = f a := by
  obtain ⟨l₁, l₂, rfl⟩ := List.append_of_mem ha
  rw [List.nodup_append, List.nodup_cons] at hl
  obtain ⟨-, ⟨ha₂, -⟩, hdisjoint⟩ := hl
  have h₁ : l₁.flatMap f = [] := List.flatMap_eq_nil_iff.2 fun b hb =>
    h b (List.mem_append_left _ hb) (hdisjoint b hb a List.mem_cons_self)
  have h₂ : l₂.flatMap f = [] := List.flatMap_eq_nil_iff.2 fun b hb =>
    h b (List.mem_append_right _ (List.mem_cons_of_mem _ hb)) fun hba => ha₂ (hba ▸ hb)
  rw [List.flatMap_append, List.flatMap_cons, h₁, h₂, List.nil_append, List.append_nil]

namespace Settings

variable {s s' : Settings} {env : Environment} {source heading name k : Bytes} {ls : List Line}
  {n : Nat} {e : Entry}

/-! ### The lines of settings -/

def Entry.lines (e : Entry) : List Line := e.values.map (.assignment e.key)

def linesIn (s : Settings) (name : Bytes) : List Line := (s.entriesIn name).flatMap Entry.lines

/-- A header after an empty line, and what stands in the section. -/
def sectionLines (s : Settings) (name : Bytes) : List Line :=
  .blank :: .header name :: s.linesIn name

def lines (s : Settings) : List Line := s.linesIn [] ++ s.sections.flatMap s.sectionLines

def textOf (ls : List Line) : Bytes := (ls.map Line.render).flatMap (· ++ [Bytes.newline])

theorem textOf_append (ls ls' : List Line) : textOf (ls ++ ls') = textOf ls ++ textOf ls' := by
  simp [textOf]

theorem textOf_flatMap {α : Type} (l : List α) (f : α → List Line) :
    textOf (l.flatMap f) = l.flatMap fun a => textOf (f a) := by
  simp only [textOf, List.map_flatMap, List.flatMap_assoc]

theorem render_eq_textOf_lines (s : Settings) : s.render = textOf s.lines := by
  have hentry (e : Entry) : textOf e.lines = e.render := by
    simp only [textOf, Entry.lines, List.map_map, List.flatMap_map]
    rfl
  have hsection (name : Bytes) : textOf (s.linesIn name) = s.renderSection name := by
    simp only [linesIn, textOf_flatMap, hentry, renderSection]
  have hheader (name : Bytes) :
      textOf (s.sectionLines name) = renderHeader name ++ s.renderSection name := by
    rw [← hsection]
    simp [textOf, sectionLines, Line.render, renderHeader]
    rfl
  rw [lines, textOf_append, textOf_flatMap, hsection, render]
  simp only [hheader]

/-! ### What lines say -/

/-- The values that lines give to a key when they are read inside a section. -/
def told : List Line → Bytes → Bytes → List Bytes
  | [], _, _ => []
  | .blank :: ls, heading, k => told ls heading k
  | .header name :: ls, _, k => told ls name k
  | .assignment key value :: ls, heading, k =>
    (if fullKey key heading = k then [value] else []) ++ told ls heading k

def headers : List Line → List Bytes
  | [] => []
  | .header name :: ls => name :: headers ls
  | .blank :: ls | .assignment .. :: ls => headers ls

theorem told_lines_append (e : Entry) (ls : List Line) (heading k : Bytes) :
    told (e.lines ++ ls) heading k =
      (if fullKey e.key heading = k then e.values else []) ++ told ls heading k := by
  rw [Entry.lines]
  induction e.values with
  | nil => simp
  | cons v vs ih =>
    rw [List.map_cons, List.cons_append, told, ih]
    split <;> rfl

theorem told_flatMap_append (es : List Entry) (ls : List Line) (heading k : Bytes) :
    told (es.flatMap Entry.lines ++ ls) heading k =
      (es.flatMap fun e => if fullKey e.key heading = k then e.values else []) ++
        told ls heading k := by
  induction es with
  | nil => rfl
  | cons e es ih =>
    rw [List.flatMap_cons, List.append_assoc, told_lines_append, ih, List.flatMap_cons,
      List.append_assoc]

theorem told_sections (s : Settings) (names : List Bytes) (heading k : Bytes) :
    told (names.flatMap s.sectionLines) heading k = names.flatMap fun name =>
      (s.entriesIn name).flatMap fun e => if fullKey e.key name = k then e.values else [] := by
  induction names generalizing heading with
  | nil => rfl
  | cons name names ih =>
    rw [List.flatMap_cons, sectionLines, List.cons_append, List.cons_append, told, told, linesIn,
      told_flatMap_append, ih, List.flatMap_cons]

theorem mem_entriesIn : e ∈ s.entriesIn name ↔
    (∃ k, s.entries.get? k = some e) ∧ e.heading = name := by
  simp [entriesIn, ByteMap.values, ByteMap.mem_entries_iff]

theorem WellFormed.nodup_entriesIn (h : s.WellFormed) (name : Bytes) :
    (s.entriesIn name).Nodup := by
  have hentries := nodup_of_ascending s.entries.ascending
  refine (hentries.map_on ?_).filter _
  rintro ⟨k, e⟩ hk ⟨k', e'⟩ hk' rfl
  rw [ByteMap.mem_entries_iff] at hk hk'
  rw [(h.placed k _ hk).found, (h.placed k' _ hk').found]

theorem WellFormed.told_lines (h : s.WellFormed) (k : Bytes) :
    told s.lines [] k = s.valuesAt k := by
  have hlines : told s.lines [] k = ([] :: s.sections).flatMap fun name =>
      (s.entriesIn name).flatMap fun e => if fullKey e.key name = k then e.values else [] := by
    rw [lines, linesIn, told_flatMap_append, told_sections, List.flatMap_cons]
  have htold {name e} (he : e ∈ s.entriesIn name) (hk : fullKey e.key name = k) :
      s.entries.get? k = some e := by
    obtain ⟨⟨k', hstored⟩, rfl⟩ := mem_entriesIn.1 he
    rwa [← hk, ← (h.placed k' e hstored).found]
  rw [hlines, valuesAt]
  cases hk : s.entries.get? k with
  | none =>
    refine List.flatMap_eq_nil_iff.2 fun name _ => List.flatMap_eq_nil_iff.2 fun e he => ?_
    refine if_neg fun hfound => ?_
    rw [htold he hfound] at hk
    cases hk
  | some e =>
    have hp := h.placed k e hk
    have hnodup : ([] :: s.sections).Nodup := by
      refine List.nodup_cons.2 ⟨fun hmem => ?_, h.nodup⟩
      exact isKey_ne_nil (h.named [] hmem) rfl
    have hheading : e.heading ∈ [] :: s.sections := List.mem_cons.2 hp.known
    have he : e ∈ s.entriesIn e.heading := mem_entriesIn.2 ⟨⟨k, hk⟩, rfl⟩
    rw [flatMap_eq_of_unique hnodup hheading, flatMap_eq_of_unique (h.nodup_entriesIn _) he,
      if_pos hp.found.symm, Option.elim_some]
    · intro e' he' hne
      refine if_neg fun hfound => hne ?_
      exact Option.some.inj ((htold he' hfound).symm.trans hk)
    · intro name _ hne
      refine List.flatMap_eq_nil_iff.2 fun e' he' => if_neg fun hfound => hne ?_
      obtain rfl := Option.some.inj ((htold he' hfound).symm.trans hk)
      exact (mem_entriesIn.1 he').2.symm

theorem headers_append (ls ls' : List Line) : headers (ls ++ ls') = headers ls ++ headers ls' := by
  induction ls with
  | nil => rfl
  | cons l ls ih => cases l <;> simp [headers, ih]

theorem headers_linesIn (s : Settings) (name : Bytes) : headers (s.linesIn name) = [] := by
  rw [linesIn]
  induction s.entriesIn name with
  | nil => rfl
  | cons e es ih =>
    rw [List.flatMap_cons, headers_append, ih, List.append_nil, Entry.lines]
    induction e.values with
    | nil => rfl
    | cons v vs ih => exact ih

theorem headers_lines (s : Settings) : headers s.lines = s.sections := by
  have hsections (names : List Bytes) : headers (names.flatMap s.sectionLines) = names := by
    induction names with
    | nil => rfl
    | cons name names ih =>
      rw [List.flatMap_cons, headers_append, ih, sectionLines, headers, headers, headers_linesIn,
        List.singleton_append]
  rw [lines, headers_append, headers_linesIn, List.nil_append, hsections]

/-! ### Reading what was written -/

/-- Lines that open new sections only are read to their end, and all they say is recorded. -/
theorem readLines_map_render (hl : ∀ l ∈ ls, l.Plain ∧ l.render.length ≤ longestLine)
    (hh : heading = [] ∨ heading ∈ s.sections) (hn : (s.sections ++ headers ls).Nodup)
    (env : Environment) (source : Bytes) (n : Nat) : ∃ s',
      readLines env source (ls.map Line.render) n heading s = (.ok [], s') ∧
      s'.sections = s.sections ++ headers ls ∧
      ∀ k, s'.valuesAt k = s.valuesAt k ++ told ls heading k := by
  induction ls generalizing s heading n with
  | nil => exact ⟨s, rfl, by simp [headers], by simp [told]⟩
  | cons l ls ih =>
    obtain ⟨⟨hl, hshort⟩, hls⟩ := List.forall_mem_cons.1 hl
    rw [List.map_cons, readLines, hl.parse_render hshort env]
    cases l with
    | blank => exact ih hls hh hn (n + 1)
    | header name =>
      have hne : name ≠ [] := isKey_ne_nil hl.valid
      have hnew : name ∉ s.sections := fun hm =>
        (List.nodup_append.1 hn).2.2 name hm name List.mem_cons_self rfl
      have hsections : (s.addSection name).sections = s.sections ++ [name] := by
        rw [sections_addSection, if_neg (not_or.2 ⟨hne, hnew⟩)]
      have hvalues (k : Bytes) : (s.addSection name).valuesAt k = s.valuesAt k := by
        rw [valuesAt, entries_addSection, valuesAt]
      have hopened : name ∈ (s.addSection name).sections := by simp [hsections]
      have hnodup : ((s.addSection name).sections ++ headers ls).Nodup := by
        rwa [hsections, List.append_assoc, List.singleton_append]
      obtain ⟨s', hread, hs', hk⟩ := ih hls (.inr hopened) hnodup (n + 1)
      refine ⟨s', hread, ?_, fun k => ?_⟩
      · rw [hs', hsections, List.append_assoc, List.singleton_append, headers]
      · rw [hk, hvalues, told]
    | assignment key value =>
      have hsections : (s.record key heading value source n).sections = s.sections := by
        rw [sections_record, addSection_of_mem hh]
      rw [← hsections] at hh
      obtain ⟨s', hread, hs', hk⟩ := ih hls hh (hsections ▸ hn) (n + 1)
      refine ⟨s', hread, hs'.trans (by rw [hsections, headers]), fun k => ?_⟩
      rw [hk, valuesAt_record, told, List.append_assoc]

/-- All values are plain, and no line of the text is too long. -/
structure Writable (s : Settings) : Prop where
  plain : ∀ e ∈ s.entries.values, ∀ v ∈ e.values, Plain v
  short : ∀ l ∈ Bytes.lines s.render, l.length ≤ longestLine

theorem WellFormed.plain_linesIn (h : s.WellFormed)
    (hp : ∀ e ∈ s.entries.values, ∀ v ∈ e.values, Plain v) (name : Bytes) :
    ∀ l ∈ s.linesIn name, l.Plain := by
  intro l hl
  obtain ⟨e, he, hl⟩ := List.mem_flatMap.1 hl
  obtain ⟨v, hv, rfl⟩ := List.mem_map.1 hl
  obtain ⟨⟨k, hk⟩, -⟩ := mem_entriesIn.1 he
  refine ⟨(h.placed k e hk).named, ?_⟩
  rintro _ _ ⟨⟩
  exact hp e (List.mem_map_of_mem (ByteMap.mem_entries_iff.2 hk)) v hv

theorem WellFormed.plain_lines (h : s.WellFormed)
    (hp : ∀ e ∈ s.entries.values, ∀ v ∈ e.values, Plain v) : ∀ l ∈ s.lines, l.Plain := by
  intro l hl
  rcases List.mem_append.1 hl with hl | hl
  · exact h.plain_linesIn hp [] l hl
  · obtain ⟨name, hname, hl⟩ := List.mem_flatMap.1 hl
    simp only [sectionLines, List.mem_cons] at hl
    rcases hl with rfl | rfl | hl
    · exact ⟨trivial, by simp⟩
    · exact ⟨h.named name hname, by simp⟩
    · exact h.plain_linesIn hp name l hl

/-- The text of settings is read as the same settings, from whatever line it starts. -/
theorem WellFormed.readLines_render (h : s.WellFormed) (hw : s.Writable) (env : Environment)
    (source : Bytes) (n : Nat) : ∃ s',
      Settings.readLines env source (Bytes.lines s.render) n [] {} = (.ok [], s') ∧ Same s s' := by
  have hplain := h.plain_lines hw.plain
  have hsplit : Bytes.lines s.render = s.lines.map Line.render := by
    rw [render_eq_textOf_lines, textOf]
    refine Bytes.lines_flatMap fun text htext => ?_
    obtain ⟨l, hl, rfl⟩ := List.mem_map.1 htext
    exact (hplain l hl).newline_not_mem
  have hlines (l : Line) (hl : l ∈ s.lines) : l.Plain ∧ l.render.length ≤ longestLine :=
    ⟨hplain l hl, hw.short _ (hsplit ▸ List.mem_map_of_mem hl)⟩
  have hn : (({} : Settings).sections ++ headers s.lines).Nodup := by
    rw [headers_lines]
    exact h.nodup
  obtain ⟨s', hread, hsections, hvalues⟩ :=
    readLines_map_render hlines (.inl rfl) hn env source n
  refine ⟨s', hsplit ▸ hread, h.same ?_ ?_ fun k => ?_⟩
  · have hs' := wellFormed_empty.readLines (.inl rfl) env source (s.lines.map Line.render) n
    rwa [hread] at hs'
  · rw [hsections, headers_lines]
    rfl
  · rw [hvalues, h.told_lines]
    rfl

/-! ### Settings that were changed in any way -/

inductive Edit
  | set (key value heading : Bytes)
  | add (key value heading : Bytes)
  | readText (env : Environment) (text source : Bytes)
  | readArguments (arguments : List Bytes)

namespace Edit

/-- Only well-formed keys and sections are given; what is read is checked anyway. -/
def Valid : Edit → Prop
  | set key _ heading | add key _ heading => isKey key ∧ IsHeading heading
  | readText .. | readArguments _ => True

instance (t : Edit) : Decidable t.Valid :=
  match t with
  | set .. | add .. => inferInstanceAs (Decidable (_ ∧ _))
  | readText .. | readArguments _ => inferInstanceAs (Decidable True)

/-- An edit whose input is malformed keeps what was read before. -/
def step (s : Settings) : Edit → Settings
  | set key value heading => s.set key value heading
  | add key value heading => s.add key value heading
  | readText env text source => (s.readText env text source).2
  | readArguments arguments => (s.readArguments arguments).2

def run (s : Settings) (ts : List Edit) : Settings := ts.foldl step s

theorem wellFormed_step (h : s.WellFormed) {t : Edit} (ht : t.Valid) : (t.step s).WellFormed := by
  cases t with
  | set key value heading => exact h.set ht.1 ht.2 value
  | add key value heading => exact h.add ht.1 ht.2 value
  | readText env text source => exact h.readText env text source
  | readArguments arguments => exact h.readArguments arguments

theorem wellFormed_run (h : s.WellFormed) {ts : List Edit} (ht : ∀ t ∈ ts, t.Valid) :
    (run s ts).WellFormed :=
  List.foldlRecOn ts step h fun _ hs t hmem => wellFormed_step hs (ht t hmem)

end Edit

/-- Whatever settings were told, their text is read without a problem as the same sections in the
same order with the same values under the same keys. -/
theorem readText_render {ts : List Edit} (ht : ∀ t ∈ ts, t.Valid)
    (hw : (Edit.run {} ts).Writable) (env : Environment) (source : Bytes) : ∃ s',
      readText {} env (Edit.run {} ts).render source = (.ok [], s') ∧
        Same (Edit.run {} ts) s' :=
  (Edit.wellFormed_run wellFormed_empty ht).readLines_render hw env source 1

def mixedEdits : List Edit :=
  [.readText {} "[net]\nnolisten\n[empty]\nbad key" "node.conf", .set "peer" "a=\"b" "net",
    .add "peer" "#c" "net", .add "home" "$\x7bHOME" [], .set "home" "\"" "paths",
    .readArguments ["--net.port=80", "rest", "--verbose", "--=", "--lost"], .add "none" [] []]

theorem readText_render_mixedEdits : (∀ t ∈ mixedEdits, t.Valid) ∧
    (Edit.run {} mixedEdits).Writable ∧ (Edit.run {} mixedEdits).sections =
      ["net", "empty", "paths"] ∧ ∃ s',
      readText {} { definitions := ["HOME=/root"] } (Edit.run {} mixedEdits).render "copy" =
        (.ok [], s') ∧ Same (Edit.run {} mixedEdits) s' := by
  have hvalid : ∀ t ∈ mixedEdits, t.Valid := by decide
  have hw : (Edit.run {} mixedEdits).Writable := ⟨by decide, by decide⟩
  exact ⟨hvalid, hw, by decide, readText_render hvalid hw { definitions := ["HOME=/root"] } "copy"⟩

end Settings

end StakeQuorum
