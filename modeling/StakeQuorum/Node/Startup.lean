import StakeQuorum.Node.Config

/-! # Checking, loading and saving configurations

A configuration is checked before it is used or saved. A configuration that works but looks unwise
leaves warnings, which are also logged.
-/

namespace StakeQuorum.Node

/-- What became of an operation: the failure, if there is one, and the warnings. -/
structure Outcome where
  error : Option ConfigError := none
  warnings : List Bytes := []
  deriving DecidableEq, Repr

namespace Outcome

def isOk (o : Outcome) : Bool := o.error.isNone

def kind (o : Outcome) : ErrorKind := o.error.elim .none ConfigError.kind

def message (o : Outcome) : Bytes := o.error.elim [] ConfigError.message

def text (o : Outcome) : Bytes := o.error.elim "OK" ConfigError.text

def ofExcept {α : Type} (r : Except ConfigError α) (warnings : List Bytes := []) : Outcome :=
  match r with
  | .ok _ => { warnings }
  | .error e => { error := some e, warnings }

end Outcome

namespace Config

/-- What looks unwise about a configuration. -/
def warnings (c : Config) : List Bytes :=
  (if 0 < c.port ∧ c.port < 1024
    then ["port " ++ Bytes.ofSignedWord c.port ++ " is privileged and may require root"] else []) ++
  (if 1000 < c.maxConnections
    then ["maxconnections " ++ Bytes.decimal c.maxConnections.toNat ++ " is unusually high"]
    else []) ++
  (if c.consensusTimeout < 1000
    then ["consensustimeout " ++ Bytes.ofWord c.consensusTimeout ++ "ms is very short"] else [])

def invalidNode? (c : Config) : Option Bytes :=
  c.bootstrapNodes.find? fun node => (Endpoint.parse? node).isNone

def fault? (c : Config) (files : Files.Tree) : Option ConfigError :=
  if !isHost c.host then some (.invalidHost c.host)
  else if c.port < 0 ∨ 65535 < c.port then some (.portOutOfRange c.port)
  else match c.invalidNode? with
    | some node => some (.invalidBootstrapNode node)
    | none =>
      if c.storagePath = [] then some .emptyStoragePath
      else if files.hasFile c.storagePath then some (.storageIsFile c.storagePath)
      else none

def warn (warnings : List Bytes) : Logged Unit :=
  warnings.forM fun w => Log.note .warn Log.Category.config w

def validate (c : Config) (files : Files.Tree) : Logged Outcome := do
  warn c.warnings
  return { error := c.fault? files, warnings := c.warnings }

def modelFiles (c : Config) : List Files.Path :=
  match c.llm with
  | some l => if l.enabled then [l.modelPath, l.tokenizerPath] else []
  | none => []

/-- Makes the storage directory and looks for the files of the language model. -/
def prepare (c : Config) (files : Files.Tree) : Except ConfigError Unit × Files.Tree :=
  match files.makeDirectories c.storagePath with
  | (.error e, files) => (.error (.cannotMakeStorage c.storagePath e), files)
  | (.ok (), files) =>
    match c.modelFiles.find? fun p => !files.hasFile p with
    | some p => (.error (.modelMissing p), files)
    | none => (.ok (), files)

/-- A configuration from a file, on top of the standard one with a new identity. Settings from a
file leave no warnings of their own. -/
def load (env : Environment) (files : Files.Tree) (newId : Bytes) (path : Files.Path) :
    Logged (Outcome × Option Config × Files.Tree) := do
  match ({} : Settings).loadFile env files path with
  | (.error p, _) => return ({ error := some (.unreadable p) }, none, files)
  | (.ok _, s) =>
    match (standard newId).updateInto env s with
    | (.error e, _) => return ({ error := some e }, none, files)
    | (.ok (), c) =>
      let checked ← c.validate files
      if !checked.isOk then return (checked, none, files)
      let (prepared, files) := c.prepare files
      let outcome := Outcome.ofExcept prepared checked.warnings
      if !outcome.isOk then return (outcome, none, files)
      Log.note .info Log.Category.config
        ("Loaded node config " ++ path ++ " (node " ++ c.nodeId ++ ")")
      return (outcome, some c, files)

def fileText (c : Config) : Bytes := "# DADBS node configuration\n" ++ c.toSettings.render

/-- Makes the directory of a path, unless the path is a bare name. -/
def makeParent (files : Files.Tree) (path : Files.Path) : Except ConfigError Unit × Files.Tree :=
  match Files.Path.parent path with
  | [] => (.ok (), files)
  | parent =>
    match files.makeDirectories parent with
    | (.ok (), files) => (.ok (), files)
    | (.error e, files) => (.error (.cannotMakeParent parent e), files)

def save (c : Config) (files : Files.Tree) (path : Files.Path) : Logged (Outcome × Files.Tree) := do
  let checked ← c.validate files
  if !checked.isOk then return (checked, files)
  match makeParent files path with
  | (.error e, files) => return ({ error := some e }, files)
  | (.ok (), files) =>
    match files.write path c.fileText with
    | .error _ => return ({ error := some (.cannotWrite path) }, files)
    | .ok files => return (checked, files)

end Config

end StakeQuorum.Node
