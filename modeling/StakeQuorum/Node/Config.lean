import StakeQuorum.Log.Note
import StakeQuorum.Node.Host
import StakeQuorum.Node.Identity
import StakeQuorum.Settings.Reading

/-! # Node configurations

A configuration has a value for every field. Settings override the fields whose keys they hold and
leave the other fields as they are; a value that is malformed stops this and nothing is overridden.
-/

namespace StakeQuorum.Node

/-- The files of the language model and how it is used. -/
structure Llm where
  enabled : Bool := false
  modelPath : Files.Path := []
  tokenizerPath : Files.Path := []
  maxBatchSize : UInt32 := 1
  useGpu : Bool := false
  deriving DecidableEq, Repr

structure Config where
  nodeId : Bytes := []
  host : Bytes := "127.0.0.1"
  port : Int64 := 8000
  storagePath : Files.Path := "./data"
  maxConnections : UInt32 := 50
  /-- In milliseconds. -/
  consensusTimeout : UInt64 := 5000
  /-- Zero stands for as many as there are processors. -/
  validatorThreads : UInt32 := 0
  bootstrapNodes : List Bytes := []
  logLevel : Bytes := "info"
  /-- Empty for no log file. -/
  logFile : Files.Path := []
  llm : Option Llm := none
  deriving DecidableEq, Repr

namespace Config

/-- The configuration of a node with a new identity. -/
def standard (nodeId : Bytes) : Config :=
  { nodeId, bootstrapNodes := ["testnet.dadbs.io:8000", "testnet2.dadbs.io:8000"] }

def timeout (c : Config) : Int64 := c.consensusTimeout.toInt64

end Config

/-! ### Failures -/

inductive ErrorKind
  | none | io | parse | invalidAddress | invalidBootstrapNode | storagePath
  deriving DecidableEq, Repr

namespace ErrorKind

def all : List ErrorKind := [none, io, parse, invalidAddress, invalidBootstrapNode, storagePath]

def name : ErrorKind → Bytes
  | none => "None"
  | io => "Io"
  | parse => "Parse"
  | invalidAddress => "InvalidAddress"
  | invalidBootstrapNode => "InvalidBootstrapNode"
  | storagePath => "StoragePath"

end ErrorKind

inductive ConfigError
  | badValue (key expected : Bytes)
  | unreadable (problem : Settings.Problem)
  | invalidHost (host : Bytes)
  | portOutOfRange (port : Int64)
  | invalidBootstrapNode (node : Bytes)
  | emptyStoragePath
  | storageIsFile (path : Files.Path)
  | cannotMakeStorage (path : Files.Path) (e : Files.FileError)
  | modelMissing (path : Files.Path)
  | cannotMakeParent (path : Files.Path) (e : Files.FileError)
  | cannotWrite (path : Files.Path)
  deriving DecidableEq, Repr

namespace ConfigError

def kind : ConfigError → ErrorKind
  | badValue .. => .parse
  | unreadable p => if p.line = 0 then .io else .parse
  | invalidHost _ | portOutOfRange _ => .invalidAddress
  | invalidBootstrapNode _ => .invalidBootstrapNode
  | emptyStoragePath | storageIsFile _ | cannotMakeStorage .. => .storagePath
  | modelMissing _ | cannotMakeParent .. | cannotWrite _ => .io

def placeText (p : Settings.Problem) : Bytes :=
  if p.line = 0 then [] else " (" ++ p.source ++ ":" ++ Bytes.decimal p.line ++ ")"

def message : ConfigError → Bytes
  | badValue key expected => "invalid value for '" ++ key ++ "': expected " ++ expected
  | unreadable p => p.cause.message ++ placeText p
  | invalidHost host => "invalid host '" ++ host ++ "'"
  | portOutOfRange port => "port " ++ Bytes.ofSignedWord port ++ " out of range"
  | invalidBootstrapNode node => "invalid bootstrap node '" ++ node ++ "'"
  | emptyStoragePath => "empty storage path"
  | storageIsFile path => path ++ " is not a directory"
  | cannotMakeStorage path e | cannotMakeParent path e =>
    "cannot create " ++ path ++ ": " ++ e.message
  | modelMissing path => "LLM file not found: '" ++ path ++ "'"
  | cannotWrite path => "cannot open " ++ path

def text (e : ConfigError) : Bytes := e.kind.name ++ ": " ++ e.message

end ConfigError

/-! ### Keys -/

namespace Key

def nodeId : Bytes := "nodeid"
def host : Bytes := "host"
def port : Bytes := "port"
def storagePath : Bytes := "storagepath"
def maxConnections : Bytes := "maxconnections"
def consensusTimeout : Bytes := "consensustimeout"
def validatorThreads : Bytes := "validatorthreads"
def bootstrapNode : Bytes := "bootstrapnode"
def logLevel : Bytes := "loglevel"
def logFile : Bytes := "logfile"

def llm : Bytes := "llm"
def enabled : Bytes := "enabled"
def modelPath : Bytes := "modelpath"
def tokenizerPath : Bytes := "tokenizerpath"
def maxBatchSize : Bytes := "maxbatchsize"
def useGpu : Bytes := "usegpu"

end Key

/-! ### From settings -/

/-- The value of a key that must be well formed, or the old value if the key is absent. -/
def override {α : Type} (s : Settings) (key : Bytes) (old : α) (new : Option α) (expected : Bytes)
    (heading : Bytes := []) : Except ConfigError α :=
  if s.contains key heading then
    match new with
    | some a => .ok a
    | none => .error (.badValue (Settings.fullKey key heading) expected)
  else .ok old

def overridePath (s : Settings) (env : Environment) (key : Bytes) (old : Files.Path)
    (heading : Bytes := []) : Files.Path :=
  if s.contains key heading then s.getPath env key [] heading else old

def getWord32? (s : Settings) (key : Bytes) (heading : Bytes := []) : Option UInt32 :=
  (s.getWord? key heading).bind fun n => if n.toNat < UInt32.size then some n.toUInt32 else none

def getPositive32? (s : Settings) (key : Bytes) (heading : Bytes := []) : Option UInt32 :=
  (getWord32? s key heading).bind fun n => if n = 0 then none else some n

def getLevelName? (s : Settings) (key : Bytes) : Option Bytes :=
  (s.get? key).filter fun name => (Log.Level.parse? name).isSome

namespace Llm

/-- Overrides the fields whose keys are there. -/
def update (l : Llm) (env : Environment) (s : Settings) : Except ConfigError Llm := do
  let enabled ← override s Key.enabled l.enabled (s.getBool? Key.enabled Key.llm) "a boolean"
    Key.llm
  let maxBatchSize ← override s Key.maxBatchSize l.maxBatchSize
    (getPositive32? s Key.maxBatchSize Key.llm) "a positive integer" Key.llm
  let useGpu ← override s Key.useGpu l.useGpu (s.getBool? Key.useGpu Key.llm) "a boolean" Key.llm
  let modelPath := overridePath s env Key.modelPath l.modelPath Key.llm
  let tokenizerPath := overridePath s env Key.tokenizerPath l.tokenizerPath Key.llm
  return { enabled, modelPath, tokenizerPath, maxBatchSize, useGpu }

end Llm

namespace Config

/-- The fields in the order in which they are overridden if their keys are there. -/
def overrides (env : Environment) (s : Settings) : List (Config → Except ConfigError Config) := [
  fun c => .ok { c with nodeId := (s.get? Key.nodeId).getD c.nodeId },
  fun c => .ok { c with host := (s.get? Key.host).getD c.host },
  fun c => ({ c with port := · }) <$>
    override s Key.port c.port (s.getInt? Key.port) "an integer",
  fun c => .ok { c with storagePath := overridePath s env Key.storagePath c.storagePath },
  fun c => ({ c with maxConnections := · }) <$> override s Key.maxConnections c.maxConnections
    (getWord32? s Key.maxConnections) "an unsigned 32-bit integer",
  fun c => ({ c with consensusTimeout := · }) <$> override s Key.consensusTimeout c.consensusTimeout
    (s.getWord? Key.consensusTimeout) "milliseconds",
  fun c => ({ c with validatorThreads := · }) <$> override s Key.validatorThreads c.validatorThreads
    (getWord32? s Key.validatorThreads) "a thread count",
  fun c => .ok { c with
    bootstrapNodes :=
      if s.contains Key.bootstrapNode then s.getList Key.bootstrapNode else c.bootstrapNodes },
  fun c => ({ c with logLevel := · }) <$> override s Key.logLevel c.logLevel
    (getLevelName? s Key.logLevel) "trace, debug, info, warn, error, fatal or off",
  fun c => .ok { c with logFile := overridePath s env Key.logFile c.logFile },
  fun c => ({ c with llm := · }) <$>
    (if s.hasSection Key.llm then some <$> (c.llm.getD {}).update env s else .ok c.llm)]

/-- The configuration with all fields overridden, or the first malformed value. -/
def update (c : Config) (env : Environment) (s : Settings) : Except ConfigError Config :=
  (overrides env s).foldlM (fun c f => f c) c

/-- Changes a draft step by step, up to the first step that fails. What was changed before stays. -/
def revise : List (Config → Except ConfigError Config) → Config → Except ConfigError Unit × Config
  | [], draft => (.ok (), draft)
  | f :: fs, draft =>
    match f draft with
    | .ok draft => revise fs draft
    | .error e => (.error e, draft)

/-- Overrides a configuration in place and says what was malformed. Only a draft that is complete
takes the place of the configuration. -/
def updateInto (c : Config) (env : Environment) (s : Settings) : Except ConfigError Unit × Config :=
  let (result, draft) := revise (overrides env s) c
  (result, if result.isOk then draft else c)

/-! ### To settings -/

def flagText (b : Bool) : Bytes := if b then "1" else "0"

end Config

def Llm.addTo (l : Llm) (s : Settings) : Settings :=
  ((((s.set Key.enabled (Config.flagText l.enabled) Key.llm).set
    Key.modelPath l.modelPath Key.llm).set
    Key.tokenizerPath l.tokenizerPath Key.llm).set
    Key.maxBatchSize (Bytes.decimal l.maxBatchSize.toNat) Key.llm).set
    Key.useGpu (Config.flagText l.useGpu) Key.llm

namespace Config

/-- Settings that hold every field. -/
def toSettings (c : Config) : Settings :=
  let s := ({} : Settings).set Key.nodeId c.nodeId
  let s := s.set Key.host c.host
  let s := s.set Key.port (Bytes.ofSignedWord c.port)
  let s := s.set Key.storagePath c.storagePath
  let s := s.set Key.maxConnections (Bytes.decimal c.maxConnections.toNat)
  let s := s.set Key.consensusTimeout (Bytes.ofWord c.consensusTimeout)
  let s := s.set Key.validatorThreads (Bytes.decimal c.validatorThreads.toNat)
  let s := c.bootstrapNodes.foldl (·.add Key.bootstrapNode ·) s
  let s := s.set Key.logLevel c.logLevel
  let s := if c.logFile = [] then s else s.set Key.logFile c.logFile
  match c.llm with
  | none => s
  | some l => l.addTo s

end Config

end StakeQuorum.Node
