import StakeQuorum.Node.Startup
import StakeQuorum.Proofs.Node.Endpoints
import StakeQuorum.Proofs.Outcomes
import StakeQuorum.Proofs.Settings.RoundTrip

/-! # Configurations that are saved and loaded again

The text of a configuration holds every field under its own key, so that what is loaded does not
depend on the configuration that it overrides. An empty list of bootstrap nodes is the exception:
it leaves no line, and the nodes of the standard configuration come back.
-/

namespace StakeQuorum.Node

open Settings (fullKey)

variable {s s' : Settings} {c d : Config} {l : Llm} {t key heading value : Bytes}
  {env : Environment}

/-! ### Texts that survive -/

/-- Printable ASCII characters other than blanks, quotes, dollar signs and tildes. The tilde is the
last printable character. -/
def isClean (c : UInt8) : Bool :=
  ' '.toUInt8 < c && c < Environment.tilde && c != Settings.doubleQuote &&
    c != Settings.singleQuote && c != Environment.dollar

def Clean (t : Bytes) : Prop := ∀ c ∈ t, isClean c

instance (t : Bytes) : Decidable (Clean t) := List.decidableBAll _ t

theorem Clean.not_mem (h : Clean t) {c : UInt8} (hc : isClean c = false) : c ∉ t :=
  Bytes.not_mem_of_class h hc

theorem Clean.isBlank_eq_false (h : Clean t) : ∀ c ∈ t, Bytes.isBlank c = false :=
  fun c hc => Bytes.isBlank_eq_false (by decide) (h c hc)

theorem Clean.plain (h : Clean t) : Settings.Plain t := by
  have hdouble : Settings.doubleQuote ∉ t := h.not_mem (by decide)
  have hsingle : Settings.singleQuote ∉ t := h.not_mem (by decide)
  have hdollar : Environment.dollar ∉ t := h.not_mem (by decide)
  refine ⟨h.not_mem (by decide), ?_, ?_, fun _ _ => ?_, fun r hr hopen => ?_⟩
  · exact (Option.any_eq_false _ _).2 fun c hc => h.isBlank_eq_false c (List.mem_of_mem_head? hc)
  · exact (Option.any_eq_false _ _).2 fun c hc => h.isBlank_eq_false c (List.mem_of_getLast? hc)
  · exact ⟨fun hq => hdouble (List.mem_of_mem_head? hq),
      fun hq => hsingle (List.mem_of_mem_head? hq)⟩
  · have hr := (List.mem_tails r t).1 hr
    exact absurd (hr.subset (hopen.subset List.mem_cons_self)) hdollar

theorem Clean.trim (h : Clean t) : Bytes.trim t = t :=
  Bytes.trim_eq_self h.plain.first h.plain.last

theorem Clean.path (h : Clean t) (env : Environment) : env.path t = t := by
  have htilde : Environment.tilde ∉ t := h.not_mem (by decide)
  have hhome : env.expandHome t = t := by
    cases t with
    | nil => rfl
    | cons c rest =>
      rw [Environment.expandHome, if_neg]
      rintro ⟨rfl, -⟩
      exact htilde List.mem_cons_self
  rw [Environment.path, hhome, Environment.expand_eq_self env (h.not_mem (by decide))]

theorem clean_decimal (n : Nat) : Clean (Bytes.decimal n) := by
  intro c hc
  have hd := Bytes.isDigit_of_mem_decimal hc
  have hne {d : UInt8} (hn : Bytes.isDigit d = false) : c ≠ d := Bytes.ne_of_class hd hn
  simp only [Bytes.isDigit, Bool.and_eq_true, decide_eq_true_eq] at hd
  simp only [isClean, Bool.and_eq_true, decide_eq_true_eq, bne_iff_ne, and_assoc]
  exact ⟨UInt8.lt_of_lt_of_le (by decide) hd.1, UInt8.lt_of_le_of_lt hd.2 (by decide),
    hne (by decide), hne (by decide), hne (by decide)⟩

theorem clean_ofSignedWord (n : Int64) : Clean (Bytes.ofSignedWord n) := by
  rw [Bytes.ofSignedWord, Bytes.signedDecimal]
  split
  · exact List.forall_mem_cons.2 ⟨by decide, clean_decimal _⟩
  · exact clean_decimal _

theorem clean_flagText (b : Bool) : Clean (Config.flagText b) := by
  cases b <;> decide

/-! ### Settings that hold a configuration -/

/-- Well-formed settings all of whose values are clean. -/
structure Tidy (s : Settings) : Prop where
  wellFormed : s.WellFormed
  clean : ∀ k, ∀ v ∈ s.valuesAt k, Clean v

theorem valuesAt_empty (k : Bytes) : ({} : Settings).valuesAt k = [] := rfl

theorem tidy_empty : Tidy {} where
  wellFormed := Settings.wellFormed_empty
  clean k v hv := by
    rw [valuesAt_empty] at hv
    cases hv

theorem Tidy.set (h : Tidy s) (key heading : Bytes) (hk : Settings.isKey key)
    (hh : Settings.IsHeading heading) (hv : Clean value) : Tidy (s.set key value heading) := by
  refine ⟨h.wellFormed.set hk hh value, fun k => ?_⟩
  rw [Settings.valuesAt_set]
  split
  · simpa using hv
  · exact h.clean k

theorem Tidy.add (h : Tidy s) (key heading : Bytes) (hk : Settings.isKey key)
    (hh : Settings.IsHeading heading) (hv : Clean value) : Tidy (s.add key value heading) := by
  refine ⟨h.wellFormed.add hk hh value, fun k v hm => ?_⟩
  rw [Settings.valuesAt_add, List.mem_append] at hm
  rcases hm with hm | hm
  · exact h.clean k v hm
  · split at hm
    · rw [List.mem_singleton] at hm
      exact hm ▸ hv
    · cases hm

def Config.texts (c : Config) : List Bytes :=
  c.nodeId :: c.host :: c.storagePath :: c.logLevel :: c.logFile ::
    (c.bootstrapNodes ++ c.llm.elim [] fun l => [l.modelPath, l.tokenizerPath])

theorem Llm.tidy_addTo (hs : Tidy s) (hm : Clean l.modelPath) (ht : Clean l.tokenizerPath) :
    Tidy (l.addTo s) := by
  have hs := hs.set Key.enabled Key.llm (by decide) (by decide) (clean_flagText l.enabled)
  have hs := hs.set Key.modelPath Key.llm (by decide) (by decide) hm
  have hs := hs.set Key.tokenizerPath Key.llm (by decide) (by decide) ht
  have hs := hs.set Key.maxBatchSize Key.llm (by decide) (by decide)
    (clean_decimal l.maxBatchSize.toNat)
  exact hs.set Key.useGpu Key.llm (by decide) (by decide) (clean_flagText l.useGpu)

theorem Config.tidy_toSettings (h : ∀ t ∈ c.texts, Clean t) : Tidy c.toSettings := by
  simp only [texts, List.forall_mem_cons, List.forall_mem_append] at h
  obtain ⟨hnode, hhost, hstorage, hlevel, hfile, hnodes, hllm⟩ := h
  have hs := tidy_empty.set Key.nodeId [] (by decide) (by decide) hnode
  have hs := hs.set Key.host [] (by decide) (by decide) hhost
  have hs := hs.set Key.port [] (by decide) (by decide) (clean_ofSignedWord c.port)
  have hs := hs.set Key.storagePath [] (by decide) (by decide) hstorage
  have hs := hs.set Key.maxConnections [] (by decide) (by decide)
    (clean_decimal c.maxConnections.toNat)
  have hs := hs.set Key.consensusTimeout [] (by decide) (by decide)
    (clean_decimal c.consensusTimeout.toNat)
  have hs := hs.set Key.validatorThreads [] (by decide) (by decide)
    (clean_decimal c.validatorThreads.toNat)
  have hs := List.foldlRecOn c.bootstrapNodes (·.add Key.bootstrapNode ·) hs fun s hs node hmem =>
    hs.add Key.bootstrapNode [] (by decide) (by decide) (hnodes node hmem)
  have hs := hs.set Key.logLevel [] (by decide) (by decide) hlevel
  have hlog := hs.set Key.logFile [] (by decide) (by decide) hfile
  unfold toSettings
  cases hl : c.llm with
  | none =>
    dsimp only
    split
    · exact hs
    · exact hlog
  | some l =>
    simp only [hl, Option.elim_some, List.forall_mem_cons] at hllm
    refine Llm.tidy_addTo ?_ hllm.1 hllm.2.1
    split
    · exact hs
    · exact hlog

structure Llm.Held (s : Settings) (l : Llm) : Prop where
  enabled : s.valuesAt (fullKey Key.enabled Key.llm) = [Config.flagText l.enabled]
  modelPath : s.valuesAt (fullKey Key.modelPath Key.llm) = [l.modelPath]
  tokenizerPath : s.valuesAt (fullKey Key.tokenizerPath Key.llm) = [l.tokenizerPath]
  maxBatchSize : s.valuesAt (fullKey Key.maxBatchSize Key.llm) =
    [Bytes.decimal l.maxBatchSize.toNat]
  useGpu : s.valuesAt (fullKey Key.useGpu Key.llm) = [Config.flagText l.useGpu]

/-- The settings hold all fields of a configuration; what is empty may be left out. -/
structure Config.Held (s : Settings) (c : Config) : Prop where
  nodeId : s.valuesAt (fullKey Key.nodeId []) = [c.nodeId]
  host : s.valuesAt (fullKey Key.host []) = [c.host]
  port : s.valuesAt (fullKey Key.port []) = [Bytes.ofSignedWord c.port]
  storagePath : s.valuesAt (fullKey Key.storagePath []) = [c.storagePath]
  maxConnections : s.valuesAt (fullKey Key.maxConnections []) =
    [Bytes.decimal c.maxConnections.toNat]
  consensusTimeout : s.valuesAt (fullKey Key.consensusTimeout []) =
    [Bytes.ofWord c.consensusTimeout]
  validatorThreads : s.valuesAt (fullKey Key.validatorThreads []) =
    [Bytes.decimal c.validatorThreads.toNat]
  bootstrapNodes : s.valuesAt (fullKey Key.bootstrapNode []) = c.bootstrapNodes
  logLevel : s.valuesAt (fullKey Key.logLevel []) = [c.logLevel]
  logFile : s.valuesAt (fullKey Key.logFile []) = if c.logFile = [] then [] else [c.logFile]
  sections : s.sections = if c.llm.isSome then [Key.llm] else []
  llm : ∀ l ∈ c.llm, l.Held s

section toSettings

variable (nodes : List Bytes) (s : Settings)

theorem valuesAt_foldl_add (k : Bytes) :
    (nodes.foldl (·.add Key.bootstrapNode ·) s).valuesAt k =
      s.valuesAt k ++ if fullKey Key.bootstrapNode [] = k then nodes else [] := by
  induction nodes generalizing s with
  | nil => simp
  | cons node nodes ih =>
    rw [List.foldl_cons, ih, Settings.valuesAt_add, List.append_assoc]
    split <;> rfl

theorem sections_foldl_add :
    (nodes.foldl (·.add Key.bootstrapNode ·) s).sections = s.sections := by
  induction nodes generalizing s with
  | nil => rfl
  | cons node nodes ih =>
    rw [List.foldl_cons, ih, Settings.sections_add, Settings.addSection_of_mem (.inl rfl)]

end toSettings

theorem held_toSettings (c : Config) : c.Held c.toSettings := by
  obtain ⟨nodeId, host, port, storagePath, maxConnections, consensusTimeout, validatorThreads,
    bootstrapNodes, logLevel, logFile, llm⟩ := c
  constructor
  case sections =>
    by_cases hf : logFile = [] <;> cases llm <;>
      simp +decide only [Config.toSettings, Llm.addTo, hf, Settings.sections_set,
        Settings.sections_addSection, sections_foldl_add, if_true, if_false,
        List.nil_append, Option.isSome_some, Option.isSome_none]
  case llm =>
    rintro l rfl
    constructor
    all_goals simp +decide only [Config.toSettings, Llm.addTo, Settings.valuesAt_set, if_true,
      if_false]
  all_goals
    by_cases hf : logFile = [] <;> cases llm <;>
      simp +decide only [Config.toSettings, Llm.addTo, hf, Settings.valuesAt_set,
        valuesAt_foldl_add, valuesAt_empty, if_true, if_false, List.nil_append, List.append_nil]

theorem Llm.Held.congr (h : l.Held s) (hs : Settings.Same s s') : l.Held s' := by
  constructor
  all_goals rw [← hs.valuesAt]
  exacts [h.enabled, h.modelPath, h.tokenizerPath, h.maxBatchSize, h.useGpu]

theorem Config.Held.congr (h : c.Held s) (hs : Settings.Same s s') : c.Held s' := by
  constructor
  case sections => rw [← hs.sections, h.sections]
  case llm => exact fun l hl => (h.llm l hl).congr hs
  all_goals rw [← hs.valuesAt]
  exacts [h.nodeId, h.host, h.port, h.storagePath, h.maxConnections, h.consensusTimeout,
    h.validatorThreads, h.bootstrapNodes, h.logLevel, h.logFile]

/-! ### Loading -/

section values

variable (hv : s.valuesAt (fullKey key heading) = [value])

include hv

theorem get?_of_valuesAt : s.get? key heading = some value := by
  rw [Settings.get?_eq_getLast?_valuesAt, hv, List.getLast?_singleton]

theorem contains_of_valuesAt : s.contains key heading :=
  Settings.contains_of_valuesAt (by rw [hv]; exact List.cons_ne_nil _ _)

theorem override_of_valuesAt {α : Type} {a : α} (old : α) {new : Option α} (expected : Bytes)
    (hn : new = some a) : override s key old new expected heading = .ok a := by
  subst hn
  exact if_pos (contains_of_valuesAt hv)

theorem overridePath_of_valuesAt (hc : Clean value) (env : Environment) (old : Files.Path) :
    overridePath s env key old heading = value := by
  rw [overridePath, if_pos (contains_of_valuesAt hv), Settings.getPath, get?_of_valuesAt hv,
    Option.getD_some, hc.path]

end values

theorem getBool?_of_valuesAt {b : Bool}
    (hv : s.valuesAt (fullKey key heading) = [Config.flagText b]) :
    s.getBool? key heading = some b := by
  rw [Settings.getBool?, get?_of_valuesAt hv, Option.bind_some]
  cases b <;> decide

theorem getWord32?_of_valuesAt {n : UInt32}
    (hv : s.valuesAt (fullKey key heading) = [Bytes.decimal n.toNat]) :
    getWord32? s key heading = some n := by
  have hlt : n.toUInt64.toNat < UInt32.size := by
    rw [UInt32.toNat_toUInt64]
    exact n.toNat_lt
  have hw : s.get? key heading = some (Bytes.ofWord n.toUInt64) := by
    rw [Bytes.ofWord, UInt32.toNat_toUInt64]
    exact get?_of_valuesAt hv
  have hle : n.toUInt64.toNat ≤ Int64.maxValue.toInt :=
    (Int.ofNat_le.2 hlt.le).trans (by decide)
  have hword := Settings.getWord?_of_get? hw hle
  rw [getWord32?, hword, Option.bind_some, if_pos hlt, UInt32.toUInt32_toUInt64]

theorem Llm.Held.update (h : l.Held s) (hm : Clean l.modelPath) (ht : Clean l.tokenizerPath)
    (hb : l.maxBatchSize ≠ 0) (old : Llm) (env : Environment) : old.update env s = .ok l := by
  have hbatch : getPositive32? s Key.maxBatchSize Key.llm = some l.maxBatchSize := by
    rw [getPositive32?, getWord32?_of_valuesAt h.maxBatchSize, Option.bind_some, if_neg hb]
  simp only [Llm.update, override_of_valuesAt h.enabled _ _ (getBool?_of_valuesAt h.enabled),
    override_of_valuesAt h.maxBatchSize _ _ hbatch,
    override_of_valuesAt h.useGpu _ _ (getBool?_of_valuesAt h.useGpu),
    overridePath_of_valuesAt h.modelPath hm, overridePath_of_valuesAt h.tokenizerPath ht]
  rfl

theorem getList_bootstrapNodes (h : c.Held s)
    (hn : ∀ node ∈ c.bootstrapNodes, Clean node ∧ (Endpoint.parse? node).isSome) :
    s.getList Key.bootstrapNode = c.bootstrapNodes := by
  have hitems (node : Bytes) (hmem : node ∈ c.bootstrapNodes) : Settings.items node = [node] := by
    obtain ⟨hclean, hnode⟩ := hn node hmem
    refine Settings.items_eq_singleton ?_ hclean.trim ?_
    · intro hcomma
      have hbyte := bytes_of_endpoint (hclean.not_mem (by decide)) hnode _ hcomma
      exact absurd hbyte (by decide)
    · rintro rfl
      exact absurd hnode (by decide)
  rw [Settings.getList_eq_flatMap_valuesAt, h.bootstrapNodes, List.flatMap_congr hitems]
  simp

theorem Config.Held.update (h : c.Held s) (hs : s.WellFormed) (ht : ∀ t ∈ c.texts, Clean t)
    (hn : ∀ node ∈ c.bootstrapNodes, (Endpoint.parse? node).isSome)
    (hlevel : (Log.Level.parse? c.logLevel).isSome)
    (htime : c.consensusTimeout.toNat ≤ Int64.maxValue.toInt)
    (hb : ∀ l ∈ c.llm, l.maxBatchSize ≠ 0) (hfile : d.logFile = []) (hllm : d.llm = none)
    (env : Environment) : d.update env s = .ok { c with
      bootstrapNodes := if c.bootstrapNodes = [] then d.bootstrapNodes else c.bootstrapNodes } := by
  simp only [texts, List.forall_mem_cons, List.forall_mem_append] at ht
  obtain ⟨-, -, hstorage, -, hlog, hnodes, hmodel⟩ := ht
  have hport : s.getInt? Key.port = some c.port := by
    rw [Settings.getInt?, get?_of_valuesAt h.port, Option.bind_some, Settings.int?_ofSignedWord]
  have htimeout := Settings.getWord?_of_get? (get?_of_valuesAt h.consensusTimeout) htime
  have hname : getLevelName? s Key.logLevel = some c.logLevel := by
    rw [getLevelName?, get?_of_valuesAt h.logLevel, Option.filter_some, if_pos hlevel]
  have hbootstrap : (if s.contains Key.bootstrapNode then s.getList Key.bootstrapNode
      else d.bootstrapNodes) =
        if c.bootstrapNodes = [] then d.bootstrapNodes else c.bootstrapNodes := by
    by_cases hnil : c.bootstrapNodes = []
    · have hvalues := h.bootstrapNodes.trans hnil
      rw [hs.contains_of_valuesAt_eq_nil hvalues, if_neg Bool.false_ne_true, if_pos hnil]
    · have hvalues := h.bootstrapNodes.trans_ne hnil
      rw [if_pos (Settings.contains_of_valuesAt hvalues), if_neg hnil,
        getList_bootstrapNodes h fun node hmem => ⟨hnodes node hmem, hn node hmem⟩]
  have hlogFile : overridePath s env Key.logFile d.logFile = c.logFile := by
    have hvalues := h.logFile
    by_cases hnil : c.logFile = []
    · rw [if_pos hnil] at hvalues
      rw [overridePath, hs.contains_of_valuesAt_eq_nil hvalues, if_neg Bool.false_ne_true, hfile,
        hnil]
    · rw [if_neg hnil] at hvalues
      exact overridePath_of_valuesAt hvalues hlog env d.logFile
  have hsection : s.hasSection Key.llm = c.llm.isSome := by
    rw [Settings.hasSection, h.sections]
    cases c.llm <;> rfl
  simp only [Config.update, overrides, List.foldlM_cons, List.foldlM_nil, bind_eq_ok_iff,
    map_eq_ok_iff, exists_exists_and_eq_and, Except.ok.injEq, exists_eq_left',
    get?_of_valuesAt h.nodeId, get?_of_valuesAt h.host,
    override_of_valuesAt h.port _ _ hport, overridePath_of_valuesAt h.storagePath hstorage,
    override_of_valuesAt h.maxConnections _ _ (getWord32?_of_valuesAt h.maxConnections),
    override_of_valuesAt h.consensusTimeout _ _ htimeout,
    override_of_valuesAt h.validatorThreads _ _ (getWord32?_of_valuesAt h.validatorThreads),
    hbootstrap, override_of_valuesAt h.logLevel _ _ hname, hlogFile, hsection, hllm]
  refine ⟨c.llm, ?_, rfl⟩
  cases hl : c.llm with
  | none => rfl
  | some l =>
    simp only [hl, Option.elim_some, List.forall_mem_cons] at hmodel
    have hupdate := (h.llm l hl).update hmodel.1 hmodel.2.1 (hb l hl) {} env
    simp only [Option.isSome_some, if_true, Option.getD_none, hupdate]
    rfl

/-! ### Saved and loaded again -/

namespace Config

/-- A configuration that can be saved and read again. -/
structure Portable (c : Config) (files : Files.Tree) : Prop where
  accepted : (c.validate files).value.isOk
  level : (Log.Level.parse? c.logLevel).isSome
  timeout : c.consensusTimeout.toNat ≤ Int64.maxValue.toInt
  batch : ∀ l ∈ c.llm, l.maxBatchSize ≠ 0
  clean : ∀ t ∈ c.texts, Clean t
  short : ∀ l ∈ Bytes.lines c.fileText, l.length ≤ Settings.longestLine

variable {files : Files.Tree}

theorem Portable.endpoints (h : c.Portable files) :
    ∀ node ∈ c.bootstrapNodes, (Endpoint.parse? node).isSome := by
  have hfault : c.fault? files = none := Option.isNone_iff_eq_none.1 h.accepted
  have hnone : c.invalidNode? = none := by
    unfold fault? at hfault
    split at hfault
    · cases hfault
    · split at hfault
      · cases hfault
      · split at hfault
        · cases hfault
        · assumption
  intro node hmem
  have hnode := List.find?_eq_none.1 hnone node hmem
  rwa [Bool.not_eq_true, Option.isNone_eq_false_iff] at hnode

def title : Bytes := "# DADBS node configuration"

theorem lines_fileText (c : Config) :
    Bytes.lines c.fileText = title :: Bytes.lines c.toSettings.render := by
  have htext : c.fileText = title ++ Bytes.newline :: c.toSettings.render := rfl
  rw [htext, Bytes.lines_append_cons (by decide)]

theorem Portable.writable (h : c.Portable files) : c.toSettings.Writable where
  plain e he v hv := by
    obtain ⟨⟨k, e⟩, hmem, rfl⟩ := List.mem_map.1 he
    have hvalues : c.toSettings.valuesAt k = e.values := by
      rw [Settings.valuesAt, ByteMap.mem_entries_iff.1 hmem, Option.elim_some]
    exact ((tidy_toSettings h.clean).clean k v (hvalues ▸ hv)).plain
  short l hl := h.short l (by rw [lines_fileText]; exact List.mem_cons_of_mem _ hl)

/-- The text of a configuration is read without a problem, and what it says overrides every field
except an empty list of bootstrap nodes. -/
theorem Portable.reread (h : c.Portable files) (env : Environment) (newId source : Bytes) : ∃ s,
    Settings.readText {} env c.fileText source = (.ok [], s) ∧
      (standard newId).update env s = .ok { c with
        bootstrapNodes := if c.bootstrapNodes = [] then (standard newId).bootstrapNodes
          else c.bootstrapNodes } := by
  have hw := (tidy_toSettings h.clean).wellFormed
  obtain ⟨s, hread, hsame⟩ := hw.readLines_render h.writable env source 2
  refine ⟨s, ?_, ?_⟩
  · rw [Settings.readText, lines_fileText]
    exact hread
  · exact ((held_toSettings c).congr hsame).update (hsame.wellFormed hw) h.clean h.endpoints
      h.level h.timeout h.batch rfl rfl env

/-- A configuration that is saved and loaded again is the same exactly when it has a bootstrap
node; without one it gets the bootstrap nodes of the standard configuration. -/
theorem reread_eq_self_iff (h : c.Portable files) (env : Environment) (newId source : Bytes) : ∃ s,
    Settings.readText {} env c.fileText source = (.ok [], s) ∧
      (standard newId).update env s = .ok { c with
        bootstrapNodes := if c.bootstrapNodes = [] then (standard newId).bootstrapNodes
          else c.bootstrapNodes } ∧
      ((standard newId).update env s = .ok c ↔ c.bootstrapNodes ≠ []) := by
  obtain ⟨s, hread, hupdate⟩ := h.reread env newId source
  refine ⟨s, hread, hupdate, ?_⟩
  rw [hupdate, Except.ok.injEq]
  constructor
  · intro heq hnil
    have hnodes := congrArg bootstrapNodes heq
    rw [if_pos hnil, hnil] at hnodes
    cases hnodes
  · intro hne
    rw [if_neg hne]

def fullNode : Config where
  nodeId := "node-7"
  host := "node.example"
  port := 9300
  storagePath := "data/node#7"
  consensusTimeout := 800
  bootstrapNodes := ["10.0.0.1:8000", "[::1]:9000"]
  logLevel := "Debug"
  logFile := "node.log"
  llm := some { enabled := true, modelPath := "model.bin", maxBatchSize := 4 }

theorem reread_fullNode : fullNode.Portable {} ∧ ∃ s,
    Settings.readText {} {} fullNode.fileText "node.conf" = (.ok [], s) ∧
      (standard "new").update {} s = .ok fullNode := by
  have h : fullNode.Portable {} :=
    ⟨by decide, by decide, by decide, by decide, by decide, by decide⟩
  obtain ⟨s, hread, -, hself⟩ := reread_eq_self_iff h {} "new" "node.conf"
  exact ⟨h, s, hread, hself.2 (by decide)⟩

def lonelyNode : Config where
  nodeId := "n1"
  host := "10.0.0.1"
  port := 9300
  storagePath := "data"

/-- A node without bootstrap nodes gets the standard ones. -/
theorem reread_lonelyNode : lonelyNode.Portable {} ∧ ∃ s d,
    Settings.readText {} {} lonelyNode.fileText "node.conf" = (.ok [], s) ∧
      (standard "new").update {} s = .ok d ∧ d ≠ lonelyNode ∧
      d.bootstrapNodes = ["testnet.dadbs.io:8000", "testnet2.dadbs.io:8000"] := by
  have h : lonelyNode.Portable {} :=
    ⟨by decide, by decide, by decide, by decide, by decide, by decide⟩
  obtain ⟨s, hread, hupdate⟩ := h.reread {} "new" "node.conf"
  exact ⟨h, s, _, hread, hupdate, by decide, rfl⟩

end Config

end StakeQuorum.Node
