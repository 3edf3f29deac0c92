import JavaUnits.Split
import JavaUnits.Storage.Action
import JavaUnits.Storage.Glob

/-!
Splitting a file of the storage into a directory, and merging a directory into a file. Nothing is
written before the transformation has succeeded.
-/

namespace JavaUnits

namespace View

variable (v : View)

/-- All files below a directory whose names end in `extension`. -/
def listSources (directory : Path) (extension : Text) : Except Fault (List Path) :=
  Glob.filesBelow v directory (CodePoint.ofChar '*' :: extension)

/-- Reads the files at the paths, each under its path below `directory`. -/
def readSources (directory : Path) : List Path → Except Fault Files
  | [] => return []
  | p :: ps => do
    let source ← v.readSource p
    return ((directory.relativeTo p).toText, source) :: (← readSources directory ps)

/-- The source files below a directory. -/
def gather (directory : Path) : Except Fault Files := do
  unless ← v.isDirectory directory do
    throw (.directoryNotFound directory)
  let paths ← v.listSources directory sourceExtension
  if paths.isEmpty then throw (.noSourceFiles directory)
  v.readSources directory paths

/-- What a merge of the files below `directory` comes to, before anything is written. -/
def survey (configured : Text) (directory : Path) (asked : Option Text) : Except Fault Merged := do
  let files ← v.gather directory
  (merge files asked configured).mapError .merge

end View

namespace Action

/-- Runs an action; a storage error in it counts as what `wrap` makes of it. -/
def wrapErrors {α : Type} (wrap : StorageError → Fault) (action : Action α) : Action α :=
  tryCatch action fun fault =>
    match fault with
    | .storage e => throw (wrap e)
    | other => throw other

/-- All files below a directory whose names end in `extension`. -/
def listSources (directory : Path) (extension : Text) : Action (List Path) :=
  ask (·.listSources directory extension)

def writeAll : List (Path × Text) → Action Unit
  | [] => pure ()
  | (p, s) :: files => do
    wrapErrors (.cannotWrite p) (write p s)
    writeAll files

/-- Splits the file at `source` into files in `directory`, and answers with their paths. -/
def splitFile (source directory : Path) : Action (List Path) := do
  unless ← isFile source do
    throw (.fileNotFound source)
  match split (← readSource source) with
  | .error e => throw (.unit e)
  | .ok parts =>
    wrapErrors (.cannotCreate directory) (makeDirectories directory)
    let files := parts.files.map fun (name, s) => (directory.child name, s)
    writeAll files
    return files.map Prod.fst

/-- Merges the files below `directory` into the file at `target`. -/
def mergeDirectory (configured : Text) (directory target : Path) (asked : Option Text) :
    Action Merged := do
  let merged ← ask (·.survey configured directory asked)
  wrapErrors (.cannotWrite target) do
    makeDirectories target.parent
    write target merged.content
  return merged

end Action

end JavaUnits
