import JavaUnits.Storage.View

/-!
Finding paths by pattern. A pattern has the parts of a path; a part of two stars stands for any
number of directories, and in every other part a star stands for any text, a question mark for one
code point and brackets for one out of a set. A search goes on silently where a permission is
wanting.
-/

namespace JavaUnits.Glob

structure Interval where
  low : CodePoint
  high : CodePoint
  deriving DecidableEq

inductive Sign where
  | anyText
  | anyOne
  | exactly (c : CodePoint)
  | oneOf (intervals : List Interval)
  | noneOf (intervals : List Interval)
  deriving DecidableEq

inductive Part where
  | anyDepth
  | name (name : Text)
  | pattern (signs : List Sign)
  /-- Ends a pattern for directories. -/
  | closing
  deriving DecidableEq

def Interval.holds (i : Interval) (c : CodePoint) : Bool :=
  i.low.val ≤ c.val && c.val ≤ i.high.val

/-- The intervals of a set. A hyphen between two code points makes an interval of them, which may be
empty; elsewhere it stands for itself. -/
def intervals : Text → List Interval
  | low :: hyphen :: high :: s =>
    if hyphen = '-' then
      if low.val ≤ high.val then ⟨low, high⟩ :: intervals s else intervals s
    else ⟨low, low⟩ :: intervals (hyphen :: high :: s)
  | c :: s => ⟨c, c⟩ :: intervals s
  | [] => []

/-- The inside of a set that begins `s`, and what follows it. A closing bracket at its start
belongs to it. -/
def bracketed? (s : Text) : Option (Text × Text) :=
  let negation := (s.takeWhile fun c : CodePoint => c = '!').take 1
  let rest := s.drop negation.length
  let first := (rest.takeWhile fun c : CodePoint => c = ']').take 1
  let inside := (rest.drop first.length).takeWhile fun c : CodePoint => c ≠ ']'
  match rest.drop (first.length + inside.length) with
  | [] => none
  | _ :: after => some (negation ++ first ++ inside, after)

/-- The inside of a set without the empty intervals at its start. -/
def withoutEmpty : Text → Text
  | low :: hyphen :: high :: s =>
    if hyphen = '-' ∧ high.val < low.val then withoutEmpty s else low :: hyphen :: high :: s
  | s => s

def negated? : Text → Option Text
  | c :: s => if c = '!' then some s else none
  | [] => none

/-- The set of an inside. An exclamation mark at its start negates it, and so does one that comes to
stand there when empty intervals are left out. -/
def signOf (inside : Text) : Sign :=
  match negated? inside with
  | some s => .noneOf (intervals s)
  | none =>
    match negated? (withoutEmpty inside) with
    | some s => .noneOf (intervals s)
    | none => .oneOf (intervals inside)

theorem bracketed?_length {s inside after : Text} (h : bracketed? s = some (inside, after)) :
    after.length < s.length := by
  simp only [bracketed?] at h
  split at h
  · simp at h
  · rename_i c rest heq
    have := congrArg List.length heq
    simp only [List.length_drop, List.length_cons] at this
    simp only [Option.some.injEq, Prod.mk.injEq] at h
    rw [← h.2]
    omega

def signs (s : Text) : List Sign :=
  match s with
  | [] => []
  | c :: s' =>
    if c = '*' then .anyText :: signs s'
    else if c = '?' then .anyOne :: signs s'
    else if c = '[' then
      match h : bracketed? s' with
      | none => .exactly c :: signs s'
      | some (inside, after) =>
        have := bracketed?_length h
        signOf inside :: signs after
    else .exactly c :: signs s'
termination_by s.length

def Sign.holds (c : CodePoint) : Sign → Bool
  | anyText => false
  | anyOne => true
  | exactly d => c = d
  | oneOf is => is.any (·.holds c)
  | noneOf is => !is.any (·.holds c)

/-- Whether the signs stand for the whole of a text. -/
def matchesText : List Sign → Text → Bool
  | [], s => s.isEmpty
  | .anyText :: signs, [] => matchesText signs []
  | .anyText :: signs, c :: s => matchesText signs (c :: s) || matchesText (.anyText :: signs) s
  | _ :: _, [] => false
  | sign :: signs, c :: s => sign.holds c && matchesText signs s
termination_by signs s => signs.length + s.length

def isPattern (part : Text) : Bool :=
  part.any fun c : CodePoint => c = '*' || c = '?' || c = '['

def holdsTwoStars : Text → Bool
  | c :: d :: s => (c = '*' && d = '*') || holdsTwoStars (d :: s)
  | _ => false

def partOf (part : Text) : Except Fault Part :=
  if part = Text.ofString "**" then .ok .anyDepth
  else if holdsTwoStars part then .error .invalidPattern
  else if isPattern part then .ok (.pattern (signs part))
  else .ok (.name part)

/-- The parts of a relative pattern. A slash at its end asks for directories. -/
def parts (pattern : Text) : Except Fault (List Part) := do
  let parts ← (Path.partsOf pattern).mapM partOf
  return if pattern.getLast? = some (CodePoint.ofChar '/') then parts ++ [.closing] else parts

/-! ## Searches -/

/-- What a search yields, one path after another, and the fault that ends it, if one does. -/
structure Search where
  found : List Path
  fault? : Option Fault

namespace Search

def nothing : Search :=
  ⟨[], none⟩

def single (p : Path) : Search :=
  ⟨[p], none⟩

def failing (fault : Fault) : Search :=
  ⟨[], some fault⟩

/-- One search after another. A fault in the first is the end of both. -/
def append (first later : Search) : Search :=
  match first.fault? with
  | none => ⟨first.found ++ later.found, later.fault?⟩
  | some _ => first

/-- The searches that begin at the members of a list, one after another. -/
def along {α : Type} (f : α → Search) : List α → Search
  | [] => nothing
  | a :: as => (f a).append (along f as)

/-- The searches that begin at what a search yields, and then its end. -/
def andThen (search : Search) (f : Path → Search) : Search :=
  (along f search.found).append ⟨[], search.fault?⟩

/-- Ends well where it is only a permission that is wanting. -/
def tolerant (search : Search) : Search :=
  match search.fault? with
  | some (.storage e) => if e.cause.isPermission then ⟨search.found, none⟩ else search
  | _ => search

def once (search : Search) : Search :=
  ⟨search.found.eraseDups, search.fault?⟩

end Search

/-- The directory at a path and all directories in it, at any depth. Links are not followed. -/
def directories (v : View) (p : Path) : Search :=
  (Search.single p).append <| Search.tolerant <|
    match _shown : v.names p with
    | .error cause => .failing (.storage ⟨cause, p, .reaching⟩)
    | .ok found =>
      Search.along (fun (name, kind) =>
        if kind = .directory then directories v (p.child name) else .nothing) found
termination_by Storage.pathLimit + 1 - p.parts.length
decreasing_by
  have short := v.short _shown
  have parts := p.length_parts_le
  simp only [Path.child, List.length_append, List.length_singleton]
  omega

/-- Whether a name in the directory at `p` leads to a directory. -/
def leadsToDirectory (v : View) (p : Path) (name : Text) : EntryKind → Except Fault Bool
  | .directory => .ok true
  | .other => .ok false
  | .link => v.isDirectory (p.child name)

/-- The paths that match the parts, as seen from the directory at `p`. -/
def select (v : View) (p : Path) : List Part → Search
  | [] => .single p
  | .closing :: _ => .single p
  | .anyDepth :: rest => ((directories v p).andThen fun q => select v q rest).once
  | .name name :: rest =>
    let found := p.child name
    Search.tolerant <|
      match if rest.isEmpty then v.exists? found else v.isDirectory found with
      | .error fault => .failing fault
      | .ok there => if there then select v found rest else .nothing
  | .pattern signs :: rest =>
    Search.tolerant <|
      match v.names p with
      | .error cause => .failing (.storage ⟨cause, p, .reaching⟩)
      | .ok found =>
        Search.along (fun (name, kind) =>
          match if rest.isEmpty then .ok true else leadsToDirectory v p name kind with
          | .error fault => .failing fault
          | .ok fits =>
            if fits && matchesText signs name then select v (p.child name) rest else .nothing) found

/-- The files below a directory whose paths end as the pattern says, in the order of paths. Where
there is no directory there are no files. -/
def filesBelow (v : View) (directory : Path) (pattern : Text) : Except Fault (List Path) := do
  let parts ← parts pattern
  if ← v.isDirectory directory then
    let search := select v directory (.anyDepth :: parts)
    let files ← search.found.filterM v.isFile
    match search.fault? with
    | none => return Path.sort files
    | some fault => throw fault
  else return []

end JavaUnits.Glob
