import JavaUnits.Merge
import JavaUnits.Storage

/-!
Faults: whatever ends an operation on the storage before its time.
-/

namespace JavaUnits

inductive Fault where
  | unit (e : UnitError)
  | merge (e : MergeError)
  | fileNotFound (path : Path)
  | directoryNotFound (path : Path)
  | noSourceFiles (directory : Path)
  | undecodable (path : Path) (e : Text.Utf8.DecodeError)
  | cannotCreate (path : Path) (e : StorageError)
  | cannotWrite (path : Path) (e : StorageError)
  | storage (e : StorageError)
  | unencodable (e : Text.Utf8.EncodeError)
  /-- A number that is infinite, or none, has no place in a response. -/
  | infiniteNumber
  /-- A path with a null in it names nothing. -/
  | nullInPath
  | invalidPattern
  deriving DecidableEq

namespace Fault

def message : Fault → Text
  | unit e => e.message
  | merge e => e.message
  | fileNotFound path => Text.ofString "File not found: " ++ path.toText
  | directoryNotFound path => Text.ofString "Input directory does not exist: " ++ path.toText
  | noSourceFiles directory => Text.ofString "No .java files found in " ++ directory.toText
  | undecodable path e =>
    path.toText ++ " is not valid UTF-8: " ++ e.reason.text ++ " at byte " ++ Text.ofNat e.start
  | cannotCreate path e =>
    Text.ofString "Cannot create output directory " ++ path.toText ++ ": " ++ e.message
  | cannotWrite path e => Text.ofString "Cannot write " ++ path.toText ++ ": " ++ e.message
  | storage e => e.message
  | unencodable e => e.message
  | infiniteNumber => "Out of range float values are not JSON compliant"
  | nullInPath => "embedded null byte"
  | invalidPattern => "Invalid pattern: '**' can only be an entire path component"

def refusal? (fault : Fault) : Option Refusal :=
  let about (kind : RefusalKind) (path : Path) : Option Refusal :=
    some { kind := kind, message := fault.message, path := some path.toText }
  match fault with
  | unit e => e.refusal?
  | merge e => e.refusal?
  | fileNotFound path => about .inputNotFound path
  | directoryNotFound path => about .inputNotFound path
  | noSourceFiles directory => about .noSourceFiles directory
  | undecodable path _ => about .sourceDecodeError path
  | cannotCreate path _ => about .writeFailure path
  | cannotWrite path _ => about .writeFailure path
  | storage _ | unencodable _ | infiniteNumber | nullInPath | invalidPattern => none

end Fault

end JavaUnits
