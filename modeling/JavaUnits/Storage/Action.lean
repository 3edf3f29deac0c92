import JavaUnits.Storage.View

/-!
Actions on the storage. An action may end in a fault; what it has done to the storage until then
stays done.
-/

namespace JavaUnits

abbrev Action := ExceptT Fault (StateM Storage)

namespace Action

/-- Asks something of what the storage shows. -/
def ask {α : Type} (question : View → Except Fault α) : Action α := do
  match question (← get).view with
  | .ok answer => return answer
  | .error fault => throw fault

/-- A path that names something is needed. -/
def checkPath (p : Path) : Action Unit :=
  if p.hasNull then throw .nullInPath else pure ()

def exists? (p : Path) : Action Bool :=
  ask (·.exists? p)

def isDirectory (p : Path) : Action Bool :=
  ask (·.isDirectory p)

def isFile (p : Path) : Action Bool :=
  ask (·.isFile p)

def read (p : Path) : Action Bytes :=
  ask (·.content p)

def readSource (p : Path) : Action Text :=
  ask (·.readSource p)

/-- Opens a file to be written: it is made, or emptied. -/
def openFile (p : Path) : Action Location := do
  checkPath p
  match (← get).writable p with
  | .error cause => throw (.storage ⟨cause, p, .reaching⟩)
  | .ok l =>
    modify (·.put l (.file []))
    return l

/-- Puts bytes into a file that was opened at a place. Where the system does not take so many, the
file is left with those that it took. -/
def fill (p : Path) (l : Location) (content : Bytes) : Action Unit := do
  match ((← get).limitsAt l).room with
  | none => modify (·.put l (.file content))
  | some (size, denial) =>
    if content.length < size then modify (·.put l (.file content))
    else
      modify (·.put l (.file (content.take size)))
      throw (.storage ⟨.denied denial, p, .filling⟩)

/-- Writes a text. The file is opened before the text is encoded. -/
def write (p : Path) (s : Text) : Action Unit := do
  let l ← openFile p
  match Text.Utf8.encode s with
  | .error e => throw (.unencodable e)
  | .ok content => fill p l content

/-- Makes a file of a file's name, unless there is one. -/
def touch (p : Path) : Action Unit := do
  checkPath p
  match (← get).writable p with
  | .error cause => throw (.storage ⟨cause, p, .reaching⟩)
  | .ok l => if ((← get).get? l).isNone then modify (·.put l (.file []))

/-- Makes a directory in a directory that is there. One that exists already is no fault; `orElse`
says what is done when the parent is missing. -/
def makeDirectoryOr (p : Path) (orElse : Action Unit) : Action Unit := do
  checkPath p
  match (← get).makeDirectory p with
  | .ok s => set s
  | .error .missing => orElse
  | .error cause =>
    unless ← isDirectory p do
      throw (.storage ⟨cause, p, .reaching⟩)

/-- Makes a directory and the parents that it lacks. -/
def makeDirectories (p : Path) : Action Unit :=
  let missing : Action Unit := throw (.storage ⟨.missing, p, .reaching⟩)
  if p.parts = [] then makeDirectoryOr p missing
  else makeDirectoryOr p do
    makeDirectories p.parent
    makeDirectoryOr p missing
termination_by p.parts.length
decreasing_by
  have := List.length_pos_iff.2 ‹¬p.parts = []›
  simp only [Path.parent, List.length_dropLast]
  omega

/-- Removes what is at the places below `l`, one after another, as far as the system lets it. -/
def removeEach (l : Location) : List Location → Action Unit
  | [] => pure ()
  | place :: places => do
    match (← get).hold? l (place.drop l.length) with
    | some (held, denial) =>
      throw (.storage ⟨.denied denial, ⟨0, held.getLast?.toList⟩, .reaching⟩)
    | none => modify (·.erase place)
    removeEach l places

/-- Removes a directory with everything in it. Its contents go first, so a path that leads through
them names nothing in the end. -/
def removeTree (p : Path) : Action Unit := do
  checkPath p
  match (← get).locate p with
  | .error cause => throw (.storage ⟨cause, p, .reaching⟩)
  | .ok l =>
    match (← get).get? l with
    | none => throw (.storage ⟨.missing, p, .reaching⟩)
    | some (.file _) => throw (.storage ⟨.notDirectory, p, .listing⟩)
    | some .directory =>
      if let some denial := ((← get).limitsAt l).listing then
        throw (.storage ⟨.denied denial, p, .reaching⟩)
      removeEach l ((← get).placesBelow l)
      match (← get).locate p with
      | .error cause => throw (.storage ⟨cause, p, .reaching⟩)
      | .ok l =>
        if let some denial := ((← get).limitsAt l).removing then
          throw (.storage ⟨.denied denial, p, .reaching⟩)
        modify (·.erase l)

end Action

end JavaUnits
