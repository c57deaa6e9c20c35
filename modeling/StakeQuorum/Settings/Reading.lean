import StakeQuorum.Files.Tree
import StakeQuorum.Settings.Basic

/-! # Reading settings

Settings come from lines of text, from files and from arguments. Reading stops at the first line or
argument that is malformed, and what was read before it stays.
-/

namespace StakeQuorum.Settings

/-! ### Lines -/

inductive LineError
  | tooLong
  | unclosedHeader
  | badSection (name : Bytes)
  | emptyKey
  | badKey (key : Bytes)
  deriving DecidableEq, Repr

/-- What a line may measure at most. -/
def longestLine : Nat := 4096

def LineError.message : LineError → Bytes
  | tooLong => "Line too long (max " ++ Bytes.decimal longestLine ++ " characters)"
  | unclosedHeader => "Missing closing bracket in section header"
  | badSection name => "Invalid section name: " ++ name
  | emptyKey => "Empty key"
  | badKey key => "Invalid key: " ++ key

inductive Line
  | blank
  | header (heading : Bytes)
  | assignment (key value : Bytes)
  deriving DecidableEq, Repr

def openBracket : UInt8 := '['.toUInt8
def closeBracket : UInt8 := ']'.toUInt8

/-- A key without a value is a flag, which `no` before a lower case letter turns off. -/
def flag (s : Bytes) : Bytes × Bytes :=
  if ("no" : Bytes).isPrefixOf s && (s.drop 2).head?.any Bytes.isLower then (s.drop 2, "false")
  else (s, "true")

def isComment (c : UInt8) : Bool := c == '#'.toUInt8 || c == ';'.toUInt8

namespace Line

def parseHeader (s : Bytes) : Except LineError Line :=
  match Bytes.cut? closeBracket s with
  | none => .error .unclosedHeader
  | some (name, _) =>
    let name := Bytes.trim name
    if isKey name then .ok (.header name) else .error (.badSection name)

def parseAssignment (env : Environment) (s : Bytes) : Except LineError Line :=
  let (key, value) := match Bytes.cut? equalsSign s with
    | none => flag s
    | some (key, value) => (Bytes.trim key, env.expand (unquote (Bytes.trim value)))
  if isKey key then .ok (.assignment key value)
  else .error (if key = [] then .emptyKey else .badKey key)

def parse (env : Environment) (s : Bytes) : Except LineError Line :=
  if longestLine < s.length then .error .tooLong
  else
    match Bytes.trim s with
    | [] => .ok .blank
    | c :: rest =>
      if isComment c then .ok .blank
      else if c = openBracket then parseHeader rest
      else parseAssignment env (c :: rest)

end Line

/-! ### Problems -/

inductive Cause
  | line (e : LineError)
  | cannotOpen (path : Files.Path)
  | tooLarge
  | badOption (argument : Bytes)
  deriving DecidableEq, Repr

def largestFile : Nat := 1024 * 1024

def Cause.message : Cause → Bytes
  | line e => e.message
  | cannotOpen path => "Cannot open file: " ++ path
  | tooLarge => "Config file too large (max " ++ Bytes.decimal largestFile ++ " bytes)"
  | badOption argument => "Invalid option: " ++ argument

/-- A cause with its place; line zero is the source as a whole. -/
structure Problem where
  cause : Cause
  source : Bytes
  line : Nat := 0
  deriving DecidableEq, Repr

/-- Warnings, or what stopped the reading. -/
abbrev Report := Except Problem (List Bytes)

/-! ### Sources -/

/-- Reads lines from number `n` on, inside a section. -/
def readLines (env : Environment) (source : Bytes) :
    List Bytes → Nat → Bytes → Settings → Report × Settings
  | [], _, _, s => (.ok [], s)
  | line :: rest, n, heading, s =>
    match Line.parse env line with
    | .error e => (.error ⟨.line e, source, n⟩, s)
    | .ok .blank => readLines env source rest (n + 1) heading s
    | .ok (.header name) => readLines env source rest (n + 1) name (s.addSection name)
    | .ok (.assignment key value) =>
      readLines env source rest (n + 1) heading (s.record key heading value source n)

def readText (s : Settings) (env : Environment) (text source : Bytes) : Report × Settings :=
  readLines env source (Bytes.lines text) 1 [] s

/-- Reads a file. A directory can be opened, but it counts as too large. -/
def loadFile (s : Settings) (env : Environment) (files : Files.Tree) (path : Files.Path) :
    Report × Settings :=
  let path := env.path path
  match files.find path with
  | .error _ => (.error ⟨.cannotOpen path, path, 0⟩, s)
  | .ok .directory => (.error ⟨.tooLarge, path, 0⟩, s)
  | .ok (.file text) =>
    if largestFile < text.length then (.error ⟨.tooLarge, path, 0⟩, s) else s.readText env text path

def commandLine : Bytes := "<command-line>"

/-- Key, section and value of an option without its hyphens. -/
def parseOption (s : Bytes) : Bytes × Bytes × Bytes :=
  let (key, value) := (Bytes.cut? equalsSign s).getD (flag s)
  match Bytes.cut? dot key with
  | some (heading, key) => (key, heading, value)
  | none => (key, [], value)

def hyphen : UInt8 := '-'.toUInt8

/-- Reads arguments from number `n` on. An option replaces the values that its key had. -/
def readOptions : List Bytes → Nat → List Bytes → Settings → Report × Settings
  | [], _, warnings, s => (.ok warnings, s)
  | argument :: rest, n, warnings, s =>
    if argument.head? ≠ some hyphen then
      readOptions rest (n + 1) (warnings ++ ["Ignoring non-option argument: " ++ argument]) s
    else
      match argument.dropWhile (· == hyphen) with
      | [] => readOptions rest (n + 1) warnings s
      | option =>
        let (key, heading, value) := parseOption option
        if isKey key && (heading.isEmpty || isKey heading) then
          readOptions rest (n + 1) warnings
            ((s.erase key heading).record key heading value commandLine n)
        else (.error ⟨.badOption argument, commandLine, n⟩, s)

def readArguments (s : Settings) (arguments : List Bytes) : Report × Settings :=
  readOptions arguments 1 [] s

end StakeQuorum.Settings
