import StakeQuorum.Node.Config
import StakeQuorum.Proofs.Outcomes
import StakeQuorum.Proofs.Settings.RoundTrip
import StakeQuorum.Proofs.Settings.Values

/-! # Layers of settings

Settings that are applied to a configuration one after the other lie on it in layers. What a field
becomes depends on the last settings with its key alone, and a field without a key in any layer
stays as it was.
-/

namespace StakeQuorum.Node

variable {α : Type} {s : Settings} {layers : List Settings} {env : Environment}
  {key heading : Bytes} {value? : Settings → Bytes → Bytes → Option α} {old mid new : α}

/-! ### One field -/

/-- What becomes of a value under layers of settings, the topmost first: the topmost layer with the
key decides alone, and without such a layer the value stays. -/
def Takes (layers : List Settings) (value? : Settings → Bytes → Bytes → Option α)
    (key heading : Bytes) (old new : α) : Prop :=
  match layers.find? (·.contains key heading) with
  | some s => value? s key heading = some new
  | none => new = old

theorem takes_singleton_of_contains (h : s.contains key heading) :
    Takes [s] value? key heading old new ↔ value? s key heading = some new := by
  rw [Takes, List.find?_singleton, if_pos h]

theorem takes_singleton_of_not_contains (h : s.contains key heading = false) :
    Takes [s] value? key heading old new ↔ new = old := by
  rw [Takes, List.find?_singleton, h]
  rfl

theorem Takes.cons (h : Takes layers value? key heading old mid)
    (hs : Takes [s] value? key heading mid new) :
    Takes (s :: layers) value? key heading old new := by
  rw [Takes, List.find?_cons]
  cases hc : s.contains key heading with
  | true => exact (takes_singleton_of_contains hc).1 hs
  | false =>
    obtain rfl := (takes_singleton_of_not_contains hc).1 hs
    exact h

theorem Takes.again (h : Takes layers value? key heading old new) :
    Takes layers value? key heading new new := by
  unfold Takes at h ⊢
  cases hfind : layers.find? (·.contains key heading) with
  | some s => rwa [hfind] at h
  | none => rfl

theorem override_eq_ok_iff {expected : Bytes} :
    override s key old (value? s key heading) expected heading = .ok new ↔
      Takes [s] value? key heading old new := by
  unfold override
  cases hc : s.contains key heading with
  | true =>
    rw [takes_singleton_of_contains hc, if_pos rfl]
    cases value? s key heading <;> simp
  | false =>
    rw [takes_singleton_of_not_contains hc, if_neg Bool.false_ne_true, Except.ok.injEq, eq_comm]

theorem ite_contains_eq_iff {a : α} (ha : value? s key heading = some a) :
    (if s.contains key heading then a else old) = new ↔
      Takes [s] value? key heading old new := by
  cases hc : s.contains key heading with
  | true => rw [takes_singleton_of_contains hc, if_pos rfl, ha, Option.some.injEq]
  | false => rw [takes_singleton_of_not_contains hc, if_neg Bool.false_ne_true, eq_comm]

def pathAt (env : Environment) (s : Settings) (key heading : Bytes) : Option Files.Path :=
  some (s.getPath env key [] heading)

theorem overridePath_eq_iff {old new : Files.Path} :
    overridePath s env key old heading = new ↔ Takes [s] (pathAt env) key heading old new :=
  ite_contains_eq_iff rfl

def itemsAt (s : Settings) (key heading : Bytes) : Option (List Bytes) :=
  some (s.getList key heading)

theorem text_eq_iff (hw : s.WellFormed) {old new : Bytes} :
    (s.get? key heading).getD old = new ↔ Takes [s] @Settings.get? key heading old new := by
  cases hc : s.contains key heading with
  | true =>
    obtain ⟨v, hv⟩ := hw.exists_get?_of_contains hc
    rw [takes_singleton_of_contains hc, hv, Option.getD_some, Option.some.injEq]
  | false =>
    rw [takes_singleton_of_not_contains hc, Settings.get?_of_contains_eq_false hc,
      Option.getD_none, eq_comm]

/-! ### All fields -/

/-- What becomes of each field of a language model. -/
structure Llm.Layered (env : Environment) (layers : List Settings) (l l' : Llm) : Prop where
  enabled : Takes layers @Settings.getBool? Key.enabled Key.llm l.enabled l'.enabled
  modelPath : Takes layers (pathAt env) Key.modelPath Key.llm l.modelPath l'.modelPath
  tokenizerPath :
    Takes layers (pathAt env) Key.tokenizerPath Key.llm l.tokenizerPath l'.tokenizerPath
  maxBatchSize :
    Takes layers @getPositive32? Key.maxBatchSize Key.llm l.maxBatchSize l'.maxBatchSize
  useGpu : Takes layers @Settings.getBool? Key.useGpu Key.llm l.useGpu l'.useGpu

/-- What becomes of each field of a configuration. A language model is there if it was there or a
layer has its section; what was not there starts with the standard values. -/
structure Config.Layered (env : Environment) (layers : List Settings) (c c' : Config) : Prop where
  nodeId : Takes layers @Settings.get? Key.nodeId [] c.nodeId c'.nodeId
  host : Takes layers @Settings.get? Key.host [] c.host c'.host
  port : Takes layers @Settings.getInt? Key.port [] c.port c'.port
  storagePath : Takes layers (pathAt env) Key.storagePath [] c.storagePath c'.storagePath
  maxConnections : Takes layers @getWord32? Key.maxConnections [] c.maxConnections c'.maxConnections
  consensusTimeout :
    Takes layers @Settings.getWord? Key.consensusTimeout [] c.consensusTimeout c'.consensusTimeout
  validatorThreads :
    Takes layers @getWord32? Key.validatorThreads [] c.validatorThreads c'.validatorThreads
  bootstrapNodes : Takes layers itemsAt Key.bootstrapNode [] c.bootstrapNodes c'.bootstrapNodes
  logLevel :
    Takes layers (fun s key _ => getLevelName? s key) Key.logLevel [] c.logLevel c'.logLevel
  logFile : Takes layers (pathAt env) Key.logFile [] c.logFile c'.logFile
  present : c'.llm.isSome ↔ c.llm.isSome ∨ ∃ s ∈ layers, s.hasSection Key.llm
  llm : Llm.Layered env layers (c.llm.getD {}) (c'.llm.getD {})

namespace Llm

variable {l l' l'' : Llm}

theorem Layered.cons (h : l.Layered env layers l') (hs : l'.Layered env [s] l'') :
    l.Layered env (s :: layers) l'' where
  enabled := h.enabled.cons hs.enabled
  modelPath := h.modelPath.cons hs.modelPath
  tokenizerPath := h.tokenizerPath.cons hs.tokenizerPath
  maxBatchSize := h.maxBatchSize.cons hs.maxBatchSize
  useGpu := h.useGpu.cons hs.useGpu

theorem Layered.again (h : l.Layered env layers l') : l'.Layered env layers l' where
  enabled := h.enabled.again
  modelPath := h.modelPath.again
  tokenizerPath := h.tokenizerPath.again
  maxBatchSize := h.maxBatchSize.again
  useGpu := h.useGpu.again

theorem update_eq_ok_iff : l.update env s = .ok l' ↔ l.Layered env [s] l' := by
  simp only [update, bind_eq_ok_iff]
  constructor
  · rintro ⟨enabled, henabled, maxBatchSize, hbatch, useGpu, hgpu, hreturn⟩
    obtain rfl := Except.ok.inj hreturn
    exact ⟨override_eq_ok_iff.1 henabled, overridePath_eq_iff.1 rfl, overridePath_eq_iff.1 rfl,
      override_eq_ok_iff.1 hbatch, override_eq_ok_iff.1 hgpu⟩
  · intro h
    refine ⟨l'.enabled, override_eq_ok_iff.2 h.enabled, l'.maxBatchSize,
      override_eq_ok_iff.2 h.maxBatchSize, l'.useGpu, override_eq_ok_iff.2 h.useGpu, ?_⟩
    rw [overridePath_eq_iff.2 h.modelPath, overridePath_eq_iff.2 h.tokenizerPath]
    rfl

/-- Without its section nothing is said about a language model. -/
theorem layered_iff_of_not_hasSection (hw : s.WellFormed) (hs : s.hasSection Key.llm = false) :
    l.Layered env [s] l' ↔ l' = l := by
  have hkept {α : Type} {value? : Settings → Bytes → Bytes → Option α} {old new : α} (key : Bytes)
      (hk : Settings.isKey key) : Takes [s] value? key Key.llm old new ↔ new = old := by
    refine takes_singleton_of_not_contains (Bool.eq_false_iff.2 fun hc => ?_)
    rw [hw.hasSection_of_contains hk (by decide) hc] at hs
    cases hs
  constructor
  · rintro ⟨enabled, modelPath, tokenizerPath, maxBatchSize, useGpu⟩
    rw [hkept _ (by decide)] at enabled modelPath tokenizerPath maxBatchSize useGpu
    change Llm.mk l'.enabled l'.modelPath l'.tokenizerPath l'.maxBatchSize l'.useGpu = l
    rw [enabled, modelPath, tokenizerPath, maxBatchSize, useGpu]
  · rintro rfl
    constructor <;> exact (hkept _ (by decide)).2 rfl

end Llm

namespace Config

open Settings (Edit)

variable {c c' c'' : Config}

theorem Layered.cons (h : c.Layered env layers c') (hs : c'.Layered env [s] c'') :
    c.Layered env (s :: layers) c'' where
  nodeId := h.nodeId.cons hs.nodeId
  host := h.host.cons hs.host
  port := h.port.cons hs.port
  storagePath := h.storagePath.cons hs.storagePath
  maxConnections := h.maxConnections.cons hs.maxConnections
  consensusTimeout := h.consensusTimeout.cons hs.consensusTimeout
  validatorThreads := h.validatorThreads.cons hs.validatorThreads
  bootstrapNodes := h.bootstrapNodes.cons hs.bootstrapNodes
  logLevel := h.logLevel.cons hs.logLevel
  logFile := h.logFile.cons hs.logFile
  present := by
    have htop := hs.present
    simp only [List.mem_singleton, exists_eq_left] at htop
    rw [htop, h.present, List.exists_mem_cons_iff, or_right_comm, or_assoc]
  llm := h.llm.cons hs.llm

theorem Layered.again (h : c.Layered env layers c') : c'.Layered env layers c' where
  nodeId := h.nodeId.again
  host := h.host.again
  port := h.port.again
  storagePath := h.storagePath.again
  maxConnections := h.maxConnections.again
  consensusTimeout := h.consensusTimeout.again
  validatorThreads := h.validatorThreads.again
  bootstrapNodes := h.bootstrapNodes.again
  logLevel := h.logLevel.again
  logFile := h.logFile.again
  present := ⟨.inl, fun hp => hp.elim id fun hs => h.present.2 (.inr hs)⟩
  llm := h.llm.again

theorem llm_eq_ok_iff (hw : s.WellFormed) {l l' : Option Llm} :
    (if s.hasSection Key.llm then some <$> (l.getD {}).update env s else pure l) = .ok l' ↔
      (l'.isSome ↔ l.isSome ∨ s.hasSection Key.llm) ∧
        (l.getD {}).Layered env [s] (l'.getD {}) := by
  cases hs : s.hasSection Key.llm with
  | true =>
    rw [if_pos rfl, map_eq_ok_iff]
    constructor
    · rintro ⟨new, hnew, rfl⟩
      exact ⟨by simp, Llm.update_eq_ok_iff.1 hnew⟩
    · rintro ⟨hsome, hnew⟩
      obtain ⟨new, rfl⟩ := Option.isSome_iff_exists.1 (hsome.2 (.inr rfl))
      exact ⟨new, Llm.update_eq_ok_iff.2 hnew, rfl⟩
  | false =>
    rw [if_neg Bool.false_ne_true, Llm.layered_iff_of_not_hasSection hw hs]
    cases l <;> cases l' <;> simp [pure, Except.pure, eq_comm]

/-- An update is carried out exactly if every value that is there is well formed, and then each
field takes the value under its key. -/
theorem update_eq_ok_iff (hw : s.WellFormed) : c.update env s = .ok c' ↔ c.Layered env [s] c' := by
  simp only [update, overrides, List.foldlM_cons, List.foldlM_nil, bind_eq_ok_iff, map_eq_ok_iff,
    Except.ok.injEq, exists_eq_left', exists_exists_and_eq_and]
  constructor
  · rintro ⟨port, hport, maxConnections, hconnections, consensusTimeout, htimeout,
      validatorThreads, hthreads, logLevel, hlevel, llm, hllm, hreturn⟩
    obtain rfl := Except.ok.inj hreturn
    obtain ⟨hpresent, hllm⟩ := (llm_eq_ok_iff hw).1 hllm
    exact {
      nodeId := (text_eq_iff hw).1 rfl
      host := (text_eq_iff hw).1 rfl
      port := override_eq_ok_iff.1 hport
      storagePath := overridePath_eq_iff.1 rfl
      maxConnections := override_eq_ok_iff.1 hconnections
      consensusTimeout := override_eq_ok_iff.1 htimeout
      validatorThreads := override_eq_ok_iff.1 hthreads
      bootstrapNodes := (ite_contains_eq_iff rfl).1 rfl
      logLevel := override_eq_ok_iff.1 hlevel
      logFile := overridePath_eq_iff.1 rfl
      present := by simpa using hpresent
      llm := hllm }
  · intro h
    refine ⟨c'.port, override_eq_ok_iff.2 h.port,
      c'.maxConnections, override_eq_ok_iff.2 h.maxConnections,
      c'.consensusTimeout, override_eq_ok_iff.2 h.consensusTimeout,
      c'.validatorThreads, override_eq_ok_iff.2 h.validatorThreads,
      c'.logLevel, override_eq_ok_iff.2 h.logLevel,
      c'.llm, (llm_eq_ok_iff hw).2 ⟨by simpa using h.present, h.llm⟩, ?_⟩
    rw [(text_eq_iff hw).2 h.nodeId, (text_eq_iff hw).2 h.host, overridePath_eq_iff.2 h.storagePath,
      (ite_contains_eq_iff rfl).2 h.bootstrapNodes, overridePath_eq_iff.2 h.logFile]
    rfl

theorem revise_eq (fs : List (Config → Except ConfigError Config)) (c : Config) :
    match fs.foldlM (fun c f => f c) c with
    | .ok c' => revise fs c = (.ok (), c')
    | .error e => (revise fs c).1 = .error e := by
  induction fs generalizing c with
  | nil => rfl
  | cons f fs ih =>
    rw [List.foldlM_cons, revise]
    cases f c with
    | error e => rfl
    | ok draft => exact ih draft

theorem updateInto_eq (c : Config) (env : Environment) (s : Settings) : c.updateInto env s =
    match c.update env s with
    | .ok c' => (.ok (), c')
    | .error e => (.error e, c) := by
  have hdraft := revise_eq (overrides env s) c
  rw [updateInto, update]
  cases hu : (overrides env s).foldlM (fun c f => f c) c with
  | ok c' =>
    simp only [hu] at hdraft
    rw [hdraft]
    rfl
  | error e =>
    simp only [hu] at hdraft
    simp [hdraft, Except.isOk, Except.toBool]

theorem updateInto_eq_ok_iff (hw : s.WellFormed) :
    c.updateInto env s = (.ok (), c') ↔ c.Layered env [s] c' := by
  rw [← update_eq_ok_iff hw, updateInto_eq]
  cases c.update env s <;> simp

theorem snd_updateInto_of_error {e : ConfigError} (h : (c.updateInto env s).1 = .error e) :
    (c.updateInto env s).2 = c := by
  rw [updateInto_eq] at h ⊢
  cases hu : c.update env s with
  | ok c' => simp [hu] at h
  | error e => rfl

/-- However settings came about, they override a configuration as a whole, once and for all, or
leave it as it was. Settings from a file and then settings from arguments lie on the standard
configuration in layers. -/
theorem layers_override (env : Environment) (newId : Bytes) {ts us : List Edit}
    (ht : ∀ t ∈ ts, t.Valid) (hu : ∀ t ∈ us, t.Valid) :
    (∀ c e, (updateInto c env (Edit.run {} ts)).1 = .error e →
      (updateInto c env (Edit.run {} ts)).2 = c) ∧
    (∀ c c', updateInto c env (Edit.run {} ts) = (.ok (), c') ↔ c.Layered env [Edit.run {} ts] c') ∧
    (∀ c c', updateInto c env (Edit.run {} ts) = (.ok (), c') →
      updateInto c' env (Edit.run {} ts) = (.ok (), c')) ∧
    ∀ c c', (standard newId).updateInto env (Edit.run {} ts) = (.ok (), c) →
      c.updateInto env (Edit.run {} us) = (.ok (), c') →
        (standard newId).Layered env [Edit.run {} us, Edit.run {} ts] c' := by
  have hts := Edit.wellFormed_run Settings.wellFormed_empty ht
  have hus := Edit.wellFormed_run Settings.wellFormed_empty hu
  refine ⟨fun c e => snd_updateInto_of_error, fun c c' => updateInto_eq_ok_iff hts,
    fun c c' hc => ?_, fun c c' hc hc' => ?_⟩
  · have hlayered := (updateInto_eq_ok_iff hts).1 hc
    exact (updateInto_eq_ok_iff hts).2 hlayered.again
  · have hfile := (updateInto_eq_ok_iff hts).1 hc
    exact hfile.cons ((updateInto_eq_ok_iff hus).1 hc')

def partialFile : List Edit :=
  [.readText {} "host=node.example\nmaxconnections=9\n[llm]\nenabled\nmaxbatchsize=8\n" "node.conf"]

def partialArguments : List Edit :=
  [.readArguments ["--maxconnections=7", "--llm.maxbatchsize=16", "--llm.usegpu"]]

def withFile : Config := { standard "n" with
  host := "node.example", maxConnections := 9, llm := some { enabled := true, maxBatchSize := 8 } }

def withArguments : Config := { withFile with
  maxConnections := 7, llm := some { enabled := true, maxBatchSize := 16, useGpu := true } }

theorem layers_override_partialFile :
    (∀ t ∈ partialFile, t.Valid) ∧ (∀ t ∈ partialArguments, t.Valid) ∧
      (standard "n").updateInto {} (Edit.run {} partialFile) = (.ok (), withFile) ∧
      withFile.updateInto {} (Edit.run {} partialArguments) = (.ok (), withArguments) ∧
      (standard "n").Layered {} [Edit.run {} partialArguments, Edit.run {} partialFile]
        withArguments := by
  have hfile : ∀ t ∈ partialFile, t.Valid := by decide
  have harguments : ∀ t ∈ partialArguments, t.Valid := by decide
  have hlower : (standard "n").updateInto {} (Edit.run {} partialFile) = (.ok (), withFile) := by
    decide +kernel
  have hupper :
      withFile.updateInto {} (Edit.run {} partialArguments) = (.ok (), withArguments) := by
    decide
  obtain ⟨-, -, -, hlayers⟩ := layers_override {} "n" hfile harguments
  exact ⟨hfile, harguments, hlower, hupper, hlayers withFile withArguments hlower hupper⟩

end Config

end StakeQuorum.Node
