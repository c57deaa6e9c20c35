import StakeQuorum.Files.Tree
import StakeQuorum.Log.Note
import StakeQuorum.Store.Database

/-! # Opening databases

Databases live in memory. A database that is opened at a path takes a directory there, which stays
empty and is removed when the database is destroyed.
-/

namespace StakeQuorum.Store

def backendName : Bytes := "memory"

def ioError (message : Bytes) : Status := { code := .ioError, message }

/-- Opens an empty database, after making its directory if that is wanted. -/
def openDatabase (files : Files.Tree) (path : Files.Path) (create : Bool := true) :
    Logged (Except Status Database × Files.Tree) := do
  let (made, files) := if create then files.makeDirectories path else (.ok (), files)
  match made with
  | .error e => return (.error (ioError (path ++ ": " ++ e.message)), files)
  | .ok () =>
    Log.note .warn Log.Category.db
      ("Built without LevelDB, account state for " ++ path ++ " is kept in memory only")
    return (.ok {}, files)

def destroyDatabase (files : Files.Tree) (path : Files.Path) : Status × Files.Tree :=
  match files.removeAll path with
  | (.ok (), files) => ({}, files)
  | (.error e, files) => (ioError e.message, files)

end StakeQuorum.Store
