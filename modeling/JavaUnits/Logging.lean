import JavaUnits.Settings
import JavaUnits.Storage.Action

/-!
Where the log goes: always to the standard stream, and to a file if one is named.
-/

namespace JavaUnits

inductive LogHandler where
  | stream
  | file
  deriving DecidableEq

/-- Sets the handlers up. The log file is made at once, below the directory that the path leads to
when its double dots are taken back. -/
def Action.setUpLogging (file : Option Path) : Action (List LogHandler) := do
  match file with
  | none => return [.stream]
  | some p =>
    Action.makeDirectories p.parent
    Action.touch p.normal
    return [.stream, .file]

end JavaUnits
