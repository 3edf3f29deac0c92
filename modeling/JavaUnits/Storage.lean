import JavaUnits.Path
import JavaUnits.Text.Utf8

/-!
The storage: a tree of directories and files, kept as the places that are taken, and what the system
refuses at some of them. Paths are followed part by part, so a double dot leads back only from a
directory that is there.
-/

namespace JavaUnits

/-- A path has hardly more parts than bytes. -/
theorem Path.length_parts_le (p : Path) : p.parts.length ≤ Text.Utf8.size p.toText + 1 := by
  have joined (parts : List Text) :
      parts.length ≤ Text.Utf8.size (Text.join "/" parts) + 1 := by
    induction parts with
    | nil => exact Nat.zero_le _
    | cons part parts ih =>
      cases parts with
      | nil => exact Nat.le_add_left _ _
      | cons next parts =>
        rw [Text.join_cons_cons, Text.Utf8.size_append, Text.Utf8.size_append,
          show Text.Utf8.size "/" = 1 from rfl]
        simp only [List.length_cons] at ih ⊢
        omega
  rw [toText]
  split
  · rename_i bare
    rw [List.isEmpty_iff.1 bare.2]
    exact Nat.zero_le _
  · rw [Text.Utf8.size_append]
    have := joined p.parts
    omega

/-- The names that lead to a place from the root. -/
abbrev Location := List Text

inductive Entry where
  | directory
  | file (content : Bytes)
  deriving DecidableEq

/-- Why the system refuses what the tree would allow. -/
inductive Denial where
  | notPermitted
  | inputOutput
  | permissionDenied
  | fileTooLarge
  | noSpace
  | readOnly
  | quotaExceeded
  deriving DecidableEq

/-- What the system refuses at one place. -/
structure Limits where
  /-- To pass through the directory. -/
  passing : Option Denial := none
  /-- To list the directory. -/
  listing : Option Denial := none
  /-- To read the file. -/
  reading : Option Denial := none
  /-- To open the file for writing, or to make it. -/
  writing : Option Denial := none
  /-- To make the directory. -/
  making : Option Denial := none
  /-- To remove what is there. -/
  removing : Option Denial := none
  /-- To take so many bytes or more into the file once it is open. -/
  room : Option (Nat × Denial) := none
  deriving DecidableEq

structure Storage where
  entries : List (Location × Entry)
  limits : List (Location × Limits) := []
  deriving DecidableEq

inductive StorageCause where
  | missing
  | alreadyThere
  | notDirectory
  | isDirectory
  | nameTooLong
  | denied (denial : Denial)
  deriving DecidableEq

namespace Denial

def number : Denial → Nat
  | notPermitted => 1
  | inputOutput => 5
  | permissionDenied => 13
  | fileTooLarge => 27
  | noSpace => 28
  | readOnly => 30
  | quotaExceeded => 122

def text : Denial → Text
  | notPermitted => "Operation not permitted"
  | inputOutput => "Input/output error"
  | permissionDenied => "Permission denied"
  | fileTooLarge => "File too large"
  | noSpace => "No space left on device"
  | readOnly => "Read-only file system"
  | quotaExceeded => "Disk quota exceeded"

end Denial

namespace StorageCause

def number : StorageCause → Nat
  | missing => 2
  | alreadyThere => 17
  | notDirectory => 20
  | isDirectory => 21
  | nameTooLong => 36
  | denied denial => denial.number

def text : StorageCause → Text
  | missing => "No such file or directory"
  | alreadyThere => "File exists"
  | notDirectory => "Not a directory"
  | isDirectory => "Is a directory"
  | nameTooLong => "File name too long"
  | denied denial => denial.text

/-- Whether there is nothing where the path leads. -/
def isAbsence : StorageCause → Bool
  | missing | notDirectory => true
  | _ => false

def isPermission : StorageCause → Bool
  | denied .notPermitted | denied .permissionDenied => true
  | _ => false

end StorageCause

/-- When something goes wrong: while a path is followed to what is asked of it, while a directory is
emptied, or while a file that was opened takes bytes. -/
inductive Stage where
  | reaching
  | listing
  | filling
  deriving DecidableEq

/-- What went wrong at which path. The message shows the path of a directory that is emptied in a
form of its own, and of a file that was open it shows none. -/
structure StorageError where
  cause : StorageCause
  path : Path
  stage : Stage
  deriving DecidableEq

def StorageError.message (e : StorageError) : Text :=
  let shown := e.path.toText.quoted
  Text.ofString "[Errno " ++ Text.ofNat e.cause.number ++ "] " ++ e.cause.text ++
    match e.stage with
    | .reaching => Text.ofString ": " ++ shown
    | .listing => Text.ofString ": PosixPath(" ++ shown ++ ")"
    | .filling => []

namespace Storage

def empty : Storage :=
  { entries := [] }

/-- What is at a place; the root is always a directory. -/
def get? (s : Storage) (l : Location) : Option Entry :=
  if l.isEmpty then some .directory else s.entries.lookup l

def isDirectoryAt (s : Storage) (l : Location) : Bool :=
  s.get? l = some .directory

def limitsAt (s : Storage) (l : Location) : Limits :=
  (s.limits.lookup l).getD {}

def put (s : Storage) (l : Location) (e : Entry) : Storage :=
  { s with entries := (l, e) :: s.entries.filter fun taken => taken.1 != l }

/-- Takes away what is at a place and everything below it. -/
def erase (s : Storage) (l : Location) : Storage :=
  { s with entries := s.entries.filter fun taken => !l.isPrefixOf taken.1 }

theorem lookup_filter (p : Location → Bool) (l : Location) (entries : List (Location × Entry)) :
    (entries.filter fun taken => p taken.1).lookup l = if p l then entries.lookup l else none := by
  induction entries with
  | nil => simp
  | cons entry entries ih =>
    obtain ⟨taken, e⟩ := entry
    by_cases same : l = taken
    · subst same
      cases kept : p l <;> simp [kept, ih]
    · have other : (l == taken) = false := by simp [same]
      cases kept : p taken <;> simp [kept, List.lookup_cons, other, ih]

theorem get?_put_self {l : Location} (h : l ≠ []) (s : Storage) (e : Entry) :
    (s.put l e).get? l = some e := by
  simp [get?, put, h]

theorem get?_put_of_ne {l m : Location} (h : m ≠ l) (s : Storage) (e : Entry) :
    (s.put l e).get? m = s.get? m := by
  have other : (m == l) = false := by simp [h]
  simp [get?, put, List.lookup_cons, lookup_filter (· != l), h, other]

theorem get?_erase (s : Storage) (l : Location) {m : Location} (h : m ≠ []) :
    (s.erase l).get? m = if l.isPrefixOf m then none else s.get? m := by
  cases below : l.isPrefixOf m <;>
    simp [get?, erase, lookup_filter fun taken => !l.isPrefixOf taken, h, below]

/-- The names in a directory with what they lead to. -/
def children (s : Storage) (l : Location) : List (Text × Entry) :=
  s.entries.filterMap fun (taken, e) =>
    match taken.getLast? with
    | some name => if taken.dropLast = l then some (name, e) else none
    | none => none

/-- The places below a directory, those in a place before the place itself. -/
def placesBelow (s : Storage) (l : Location) : List Location :=
  let below := (s.entries.map Prod.fst).filter fun taken => l.isPrefixOf taken && taken != l
  below.mergeSort fun m n => !Path.partsLt m n

/-- The number of bytes that a name may have. -/
def nameLimit : Nat := 255

/-- The number of bytes that a path must stay below. -/
def pathLimit : Nat := 4096

def isTooLong (name : Text) : Bool :=
  nameLimit < Text.Utf8.size name

/-- Whether the system goes on. -/
def heed : Option Denial → Except StorageCause Unit
  | none => .ok ()
  | some denial => .error (.denied denial)

def enter (s : Storage) (l : Location) : Except StorageCause Unit :=
  match s.get? l with
  | none => .error .missing
  | some (.file _) => .error .notDirectory
  | some .directory => heed (s.limitsAt l).passing

/-- The place to which `parts` lead from `l`. What they pass must be there; what the last of them
leads to need not be. -/
def walk (s : Storage) (l : Location) : List Text → Except StorageCause Location
  | [] => .ok l
  | part :: parts =>
    match s.enter l with
    | .error cause => .error cause
    | .ok () =>
      if part = Path.parentName then s.walk l.dropLast parts
      else if isTooLong part then .error .nameTooLong
      else s.walk (l ++ [part]) parts

def locate (s : Storage) (p : Path) : Except StorageCause Location :=
  if pathLimit ≤ Text.Utf8.size p.toText then .error .nameTooLong else s.walk [] p.parts

/-- What is at a path, if something is. -/
def status (s : Storage) (p : Path) : Except StorageCause (Option Entry) :=
  match s.locate p with
  | .ok l => .ok (s.get? l)
  | .error cause => if cause.isAbsence then .ok none else .error cause

def list (s : Storage) (p : Path) : Except StorageCause (List (Text × Entry)) := do
  let l ← s.locate p
  match s.get? l with
  | none => throw .missing
  | some (.file _) => throw .notDirectory
  | some .directory =>
    heed (s.limitsAt l).listing
    return s.children l

def read (s : Storage) (p : Path) : Except StorageCause Bytes := do
  let l ← s.locate p
  match s.get? l with
  | none => throw .missing
  | some .directory => throw .isDirectory
  | some (.file content) =>
    heed (s.limitsAt l).reading
    return content

/-- The place of a file that may be written. -/
def writable (s : Storage) (p : Path) : Except StorageCause Location := do
  let l ← s.locate p
  if s.isDirectoryAt l then throw .isDirectory
  heed (s.limitsAt l).writing
  return l

def makeDirectory (s : Storage) (p : Path) : Except StorageCause Storage := do
  let l ← s.locate p
  if p.parts.getLast? = some Path.parentName then throw .alreadyThere
  match s.get? l with
  | some _ => throw .alreadyThere
  | none =>
    heed (s.limitsAt l).making
    return s.put l .directory

/-- What is in the way of removing the place that `down` leads to from `l`, with the place at which
it is refused: a directory that cannot be looked into, or the place itself. -/
def hold? (s : Storage) (l : Location) : List Text → Option (Location × Denial)
  | [] => ((s.limitsAt l).listing <|> (s.limitsAt l).removing).map fun denial => (l, denial)
  | name :: down =>
    match (s.limitsAt l).listing with
    | some denial => some (l, denial)
    | none => s.hold? (l ++ [name]) down

end Storage

end JavaUnits
