import StakeQuorum.Daemon

/-! # What a run looks at

A run is a function of what the daemon finds. These are the variables and the paths that matter to a
run with given arguments, so that nothing else has to be looked up for it.
-/

namespace StakeQuorum.Daemon

/-- The variables that texts refer to, and the one that names the home directory. -/
def variableNames (texts : List Bytes) : List Bytes :=
  "HOME" :: texts.flatMap Environment.references

def settingsOf (arguments : List Bytes) : Settings := (({} : Settings).readArguments arguments).2

def placesOf (c : Node.Config) : List Files.Path :=
  [c.storagePath, Files.Path.child c.storagePath accountsName, c.logFile] ++ c.modelFiles

/-- The paths that a run looks at when this is the text of its configuration file. -/
def paths (env : Environment) (arguments : List Bytes) (text : Bytes) : List Files.Path :=
  let args := settingsOf arguments
  let standard := Node.Config.standard []
  let written := (({} : Settings).readText env text []).2
  let loaded := (standard.updateInto env written).2
  let final := placeData env args (loaded.updateInto env args).2
  (configPath env args :: placesOf loaded ++ placesOf final).flatMap Files.Path.along

end StakeQuorum.Daemon
