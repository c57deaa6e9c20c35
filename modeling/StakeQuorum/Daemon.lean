import StakeQuorum.Deployment
import StakeQuorum.Log.Logger
import StakeQuorum.Node.Startup
import StakeQuorum.Store.Opening

/-! # The daemon

The daemon reads its arguments and either answers them at once or serves: it loads its
configuration, or writes a first one, opens the account database, brings up the ledger with its
validators, and shuts down when it is told to. A run is a function of what the daemon finds when it
is started.
-/

namespace StakeQuorum.Daemon

/-! ### Texts -/

def title : Bytes := "DADBS Daemon v0.1.0"

def helpText : Bytes := title ++ "

Usage: dadbsd [options]

Options:
  -help                      Show this help message
  -version                   Show version information
  -conf=FILE                 Config file (default: <datadir>/dadbs.conf)
  -datadir=DIR               Storage directory (overrides storagepath)
  -loglevel=LEVEL            trace, debug, info, warn, error, fatal, off
  -printtoconsole=0/1        Log to the console (default: 1)
  -derive=ADDRESS            Print the internal address for an external
                             address and exit

Any config file key may also be given as -key=value, for example
-port=8001 or -llm.enabled=1.
"

def versionText : Bytes :=
  title ++ "\nStorage backend: " ++ Store.backendName ++
    "\nCopyright (c) 2024 DADBS Developers\nMIT License\n"

def errorLine (message : Bytes) : Bytes := "Error: " ++ message ++ "\n"

def warningLine (message : Bytes) : Bytes := "Warning: " ++ message ++ "\n"

/-! ### Runs -/

/-- What the daemon finds when it is started. -/
structure Circumstances where
  environment : Environment := {}
  files : Files.Tree := {}
  /-- Output goes to a terminal. -/
  terminal : Bool := false
  /-- The identity of a node that has none yet. -/
  newId : Bytes
  time : Int64 := 0
  thread : Option Nat := none

structure Run where
  exit : UInt8 := 0
  outlets : Log.Outlets := {}

namespace Run

def print (r : Run) (text : Bytes) : Run :=
  { r with outlets.output := r.outlets.output ++ text }

def complain (r : Run) (text : Bytes) : Run :=
  { r with outlets.errors := r.outlets.errors ++ text }

def fail (r : Run) (message : Bytes) : Run := { r.complain (errorLine message) with exit := 1 }

end Run

/-! ### Configuration -/

namespace Key

def help : Bytes := "help"
def shortHelp : Bytes := "h"
def version : Bytes := "version"
def derive : Bytes := "derive"
def conf : Bytes := "conf"
def dataDirectory : Bytes := "datadir"
def printToConsole : Bytes := "printtoconsole"

end Key

def configName : Bytes := "dadbs.conf"

def accountsName : Bytes := "accounts"

def configPath (env : Environment) (args : Settings) : Files.Path :=
  match args.get? Key.conf with
  | some path => env.expandHome path
  | none => Files.Path.child (args.getPath env Key.dataDirectory ".") configName

/-- The configuration with the storage directory that the arguments name. -/
def placeData (env : Environment) (args : Settings) (c : Node.Config) : Node.Config :=
  { c with storagePath := Node.overridePath args env Key.dataDirectory c.storagePath }

/-- The configuration in a file. A file that was not asked for by name is written first if it is
not there. -/
def readOrWriteConfig (w : Circumstances) (args : Settings) (r : Run) :
    Except Run (Node.Config × Run) :=
  let path := configPath w.environment args
  let files := r.outlets.files
  if !args.contains Key.conf && !files.contains path then
    let c := placeData w.environment args (Node.Config.standard w.newId)
    let (saved, files) := (c.save files path).value
    let r := { r with outlets.files := files }
    match saved.error with
    | some e => .error (r.fail ("cannot write default config: " ++ e.text))
    | none => .ok (c, r.print ("Wrote default configuration to " ++ path ++ "\n"))
  else
    let (loaded, c, files) := (Node.Config.load w.environment files w.newId path).value
    let r := { r with outlets.files := files }
    match loaded.error, c with
    | none, some c => .ok (c, r)
    | _, _ => .error (r.fail (path ++ ": " ++ loaded.text))

/-- The configuration of a run: what the file says, overridden by the arguments. -/
def configure (w : Circumstances) (args : Settings) (r : Run) : Except Run (Node.Config × Run) := do
  let (c, r) ← readOrWriteConfig w args r
  match c.updateInto w.environment args with
  | (.error e, _) => .error (r.fail e.text)
  | (.ok (), c) =>
    let c := placeData w.environment args c
    match c.fault? r.outlets.files with
    | some e => .error (r.fail e.text)
    | none =>
      let (prepared, files) := c.prepare r.outlets.files
      let r := { r with outlets.files := files }
      match prepared with
      | .error e => .error (r.fail e.text)
      | .ok () => .ok (c, r)

/-! ### Serving -/

def openLogger (c : Node.Config) (console : Bool) (r : Run) : Log.Logger × Run :=
  let level := (Log.Level.parse? c.logLevel).getD .info
  let logger : Log.Logger := { level, started := true }
  let logger := if console then (logger.add { level }).2 else logger
  if c.logFile = [] then (logger, r)
  else
    let (sink, outlets) := Log.Sink.openFile c.logFile true level Log.Format.full r.outlets
    let r := { r with outlets }
    if sink.isOpen then ((logger.add sink).2, r)
    else (logger, r.complain (warningLine ("cannot open log file " ++ c.logFile)))

def say (message : Bytes) : Logged Unit := Log.note .info Log.Category.default message

/-- What is logged of a notice. There is no transport, so a client that is asked for is missing. -/
def notesOf : Notice → List Log.Note
  | .log n => [n]
  | .asked identity =>
    [⟨.debug, Log.Category.consensus, "No transport for validator " ++ identity⟩]
  | .told .. => []

/-- Keeps what is logged of the notices. -/
def logged {α : Type} (x : Noticed α) : Logged α := ⟨x.value, x.trace.flatMap notesOf⟩

def deploy (c : Node.Config) (db : Store.Database) : Logged Deployment := do
  let ledger : Stake.Ledger Client := { program := Stake.defaultProgram, db }
  let d : Deployment := { ledger, factories := fun _ _ => .ok none }
  let (_, d) ← logged (d.openRegistry Validator.defaultMinimum true)
  return (d.employ (d.following.map .following) .wall c.timeout c.validatorThreads.toNat).2

def describe (c : Node.Config) (d : Deployment) : Logged Unit := do
  say ("Node id: " ++ c.nodeId)
  say ("Listen address: " ++ c.host ++ ":" ++ Bytes.ofSignedWord c.port)
  say ("Storage: " ++ c.storagePath ++ " (" ++ Store.backendName ++ ")")
  say ("Bootstrap nodes: " ++ Bytes.decimal c.bootstrapNodes.length)
  match c.llm with
  | some l => if l.enabled then say ("LLM model: " ++ l.modelPath)
  | none => pure ()
  let stakes ← Stake.stakes d.ledger.db d.ledger.program
  let total ← Stake.totalStaked d.ledger.db d.ledger.program
  Log.note .info Log.Category.stake ("Stake program: " ++ d.ledger.program ++ ", stakes: " ++
    Bytes.decimal stakes.length ++ ", total staked: " ++ Bytes.ofWord total)
  let validators := (d.following.map fun id => d.validators (.following id)).getD []
  validators.forM fun v => Log.note .info Log.Category.consensus v.text
  Log.note .info Log.Category.consensus ("Validators: " ++ Bytes.decimal validators.length ++
    ", consensus timeout: " ++ Duration.text c.timeout)

def startUp (c : Node.Config) (files : Files.Tree) : Logged (Bool × Files.Tree) := do
  say (title ++ " starting...")
  let path := Files.Path.child c.storagePath accountsName
  match ← Store.openDatabase files path with
  | (.error s, files) =>
    Log.note .error Log.Category.default
      ("Cannot open account database " ++ path ++ ": " ++ s.text)
    return (false, files)
  | (.ok db, files) =>
    let d ← deploy c db
    describe c d
    say "DADBS Daemon started"
    return (true, files)

def shutDown : Logged Unit := do
  say "Shutting down..."
  say "Shutdown complete"

/-- The entry of a note. Its place is the daemon as a whole. -/
def entryOf (w : Circumstances) (n : Log.Note) : Log.Entry :=
  { level := n.level, category := n.category, message := n.message, file := "dadbsd",
    time := w.time, thread := w.thread }

/-- A daemon that has come up, or failed to, and is to be shut down. -/
structure Serving where
  logger : Log.Logger
  /-- What has been left so far. -/
  run : Run

def Serving.deliver (s : Serving) (w : Circumstances) (notes : List Log.Note) : Serving :=
  { s with
    run := { s.run with
      outlets := notes.foldl (fun o n => s.logger.log (entryOf w n) o) s.run.outlets } }

def Serving.close (s : Serving) : Run :=
  { s.run with outlets := (s.logger.shutdown s.run.outlets).2 }

inductive Progress
  | ended (r : Run)
  | serving (s : Serving)

/-- Comes up with the configuration that the arguments lead to. -/
def serve (w : Circumstances) (args : Settings) (r : Run) : Progress :=
  match configure w args r with
  | .error r => .ended r
  | .ok (c, r) =>
    let (logger, r) := openLogger c ((args.getBool? Key.printToConsole).getD true) r
    let up := startUp c r.outlets.files
    let run := { r with exit := if up.value.1 then 0 else 1, outlets.files := up.value.2 }
    .serving (Serving.deliver ⟨logger, run⟩ w up.trace)

/-! ### Commands -/

def derive (external : Bytes) (r : Run) : Run :=
  match Address.derive external with
  | .ok a => r.print (a.text ++ "\n")
  | .error e => r.fail e.message

def start (w : Circumstances) (arguments : List Bytes) : Progress :=
  let r : Run := { outlets := { terminal := w.terminal, files := w.files } }
  match ({} : Settings).readArguments arguments with
  | (.error p, _) => .ended (r.fail p.cause.message)
  | (.ok warnings, args) =>
    let r := warnings.foldl (fun r w => r.complain (warningLine w)) r
    if (args.getBool? Key.help).getD false || (args.getBool? Key.shortHelp).getD false then
      .ended (r.print helpText)
    else if (args.getBool? Key.version).getD false then .ended (r.print versionText)
    else
      match args.get? Key.derive with
      | some external => .ended (derive external r)
      | none => serve w args r

def Progress.soFar : Progress → Run
  | ended r => r
  | serving s => s.run

def Progress.finish (w : Circumstances) : Progress → Run
  | ended r => r
  | serving s => (s.deliver w shutDown.trace).close

/-- A run that is told to stop as soon as it has come up. -/
def run (w : Circumstances) (arguments : List Bytes) : Run := (start w arguments).finish w

end StakeQuorum.Daemon
