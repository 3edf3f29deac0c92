import JavaUnits.Fault

/-!
What the system shows of what it stores. All reading goes through it, so that what is said of
reading holds of whatever a system may show: of links as well, and of directories that it does not
list.
-/

namespace JavaUnits

/-- What a name in a directory stands for. A link is followed only when its path is. -/
inductive EntryKind where
  | directory
  | link
  | other
  deriving DecidableEq

def Entry.kind : Entry → EntryKind
  | directory => .directory
  | file _ => .other

structure View where
  /-- What a path leads to, if it leads to something. -/
  status : Path → Except StorageCause (Option Entry)
  /-- The names in a directory. -/
  names : Path → Except StorageCause (List (Text × EntryKind))
  /-- What a file holds. -/
  read : Path → Except StorageCause Bytes
  /-- Where a path is too long, nothing is shown. -/
  short : ∀ {p found}, names p = .ok found → Text.Utf8.size p.toText < Storage.pathLimit

namespace Storage

theorem size_of_list {s : Storage} {p : Path} {found : List (Text × Entry)}
    (listed : s.list p = .ok found) : Text.Utf8.size p.toText < pathLimit := by
  refine Nat.lt_of_not_le fun long => ?_
  rw [list, locate, if_pos long] at listed
  cases listed

/-- A storage has no links, so that what a name stands for is what its path leads to. -/
def view (s : Storage) : View where
  status := s.status
  names p := (s.list p).map fun found => found.map fun (name, e) => (name, e.kind)
  read := s.read
  short {p _} listed := by
    cases here : s.list p with
    | error cause =>
      rw [here] at listed
      cases listed
    | ok entries => exact size_of_list here

end Storage

namespace Path

def hasNull (p : Path) : Bool :=
  p.parts.any fun part => part.contains (CodePoint.ofChar '\x00')

end Path

namespace View

variable (v : View)

/-- What is at a path, if something is. -/
def lookUp (p : Path) : Except Fault (Option Entry) :=
  if p.hasNull then .ok none
  else (v.status p).mapError fun cause => .storage ⟨cause, p, .reaching⟩

def exists? (p : Path) : Except Fault Bool :=
  return (← v.lookUp p).isSome

def isDirectory (p : Path) : Except Fault Bool :=
  return (← v.lookUp p) = some .directory

def isFile (p : Path) : Except Fault Bool := do
  match ← v.lookUp p with
  | some (.file _) => return true
  | _ => return false

/-- What the file at a path holds. A path that names something is needed. -/
def content (p : Path) : Except Fault Bytes :=
  if p.hasNull then .error .nullInPath
  else (v.read p).mapError fun cause => .storage ⟨cause, p, .reaching⟩

/-- The source text of a file, without a byte order mark and with line feeds for line breaks. -/
def readSource (p : Path) : Except Fault Text := do
  match Text.Utf8.decodeMarked (← v.content p) with
  | .ok s => return s.unifyBreaks
  | .error e => throw (.undecodable p e)

end View

end JavaUnits
