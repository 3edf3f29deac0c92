import JavaUnits.Storage.Sources

/-!
Workspaces: the submission file of one problem and the directory into which it is split. A file is
split when it is opened for editing and merged again before it is read. Languages that cannot be
split are left alone.
-/

namespace JavaUnits

structure Workspace where
  root : Path
  problemId : Int
  problemName : Text
  extension : Text := sourceExtension
  skeleton : Text := []
  deriving DecidableEq

namespace Workspace

def path (w : Workspace) : Path :=
  let name : Text := w.problemName.strip.map fun c : CodePoint => if c = ' ' then '_' else c
  let extension : Text := if w.extension.isEmpty then ".tmp" else w.extension
  w.root ++ Path.ofText (Text.ofInt w.problemId ++ "_" ++ name ++ extension)

def splitDirectory (w : Workspace) : Path :=
  w.path.splitDirectory

def isSplittable (w : Workspace) : Bool :=
  (Language.ofPath? w.path).isSome

/-- Writes the skeleton, unless the file is there, and tells whether it did. -/
def create (w : Workspace) (override : Bool) : Action Bool := do
  if (← Action.exists? w.path) && !override then return false
  Action.makeDirectories w.path.parent
  Action.write w.path w.skeleton
  return true

def splitFiles (w : Workspace) : Action (List Path) := do
  if ← Action.isDirectory w.splitDirectory then
    Action.listSources w.splitDirectory w.extension
  else return []

/-- Makes sure that the submission is there and answers with the files to edit. Files split before
are taken up again, unless `override` is set and everything is made anew from the skeleton. -/
def openForEditing (w : Workspace) (override : Bool) : Action (List Path) := do
  Action.checkPath w.path
  let _ ← w.create override
  if !w.isSplittable then return [w.path]
  if override then
    if ← Action.exists? w.splitDirectory then Action.removeTree w.splitDirectory
  let existing ← w.splitFiles
  if !existing.isEmpty then return existing
  return Path.sort (← Action.splitFile w.path w.splitDirectory)

/-- Merges the split files back, if the language has any. -/
def prepare (w : Workspace) (configured : Text) (asked : Option Text) :
    Action (Option Merged) := do
  if !w.isSplittable then return none
  Action.checkPath w.path
  return some (← Action.mergeDirectory configured w.splitDirectory w.path asked)

/-- The bytes of the submission. One that was never opened for editing has nothing to merge. -/
def read (w : Workspace) (configured : Text) (asked : Option Text) : Action Bytes := do
  if ← Action.isDirectory w.splitDirectory then
    let _ ← w.prepare configured asked
  let _ ← w.create false
  Action.read w.path

end Workspace

end JavaUnits
