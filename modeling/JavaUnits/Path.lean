import JavaUnits.Text.Case

/-!
Paths as text: how one is read, joined and written. Empty parts and single dots are dropped, double
dots are kept. Exactly two slashes in front are a root of their own; any other number counts as one.
-/

namespace JavaUnits

structure Path where
  /-- How many slashes stand in front: none, one or two. -/
  slashes : Nat
  parts : List Text
  deriving DecidableEq

namespace Path

def parentName : Text :=
  ".."

def partsOf (s : Text) : List Text :=
  (s.splitOn '/').filter fun part => !part.isEmpty && part != Text.ofString "."

def ofText (s : Text) : Path :=
  let slashes := (s.takeWhile fun c : CodePoint => c = '/').length
  ⟨if slashes = 2 then 2 else min slashes 1, partsOf s⟩

instance : Coe Text Path := ⟨ofText⟩

def toText (p : Path) : Text :=
  if p.slashes = 0 ∧ p.parts.isEmpty then "."
  else (List.replicate p.slashes '/').map CodePoint.ofChar ++ Text.join "/" p.parts

/-- The path `q` as seen from `p`; a rooted path stays what it is. -/
def append (p q : Path) : Path :=
  if q.slashes = 0 then ⟨p.slashes, p.parts ++ q.parts⟩ else q

instance : Append Path := ⟨append⟩

def child (p : Path) (name : Text) : Path :=
  ⟨p.slashes, p.parts ++ [name]⟩

def parent (p : Path) : Path :=
  ⟨p.slashes, p.parts.dropLast⟩

def name (p : Path) : Text :=
  p.parts.getLast?.getD []

/-- The name in two, before its last dot; a dot at either end of the name does not count. -/
def splitName (p : Path) : Text × Text :=
  let extension := (p.name.reverse.takeWhile fun c : CodePoint => c ≠ '.').reverse
  let stem := p.name.take (p.name.length - extension.length - 1)
  if extension.isEmpty || stem.isEmpty || extension.length == p.name.length then (p.name, [])
  else (stem, '.' :: extension)

def stem (p : Path) : Text :=
  p.splitName.1

def suffix (p : Path) : Text :=
  p.splitName.2

/-- The directory beside a file that has the file's name without its suffix. -/
def splitDirectory (p : Path) : Path :=
  p.parent ++ ofText p.stem

/-- The part of `p` below `base`. -/
def relativeTo (base p : Path) : Path :=
  ⟨0, p.parts.drop base.parts.length⟩

/-- Double dots taken back with the part before them, without a look at what is there. -/
def normalParts (done : List Text) : List Text → List Text
  | [] => done.reverse
  | part :: parts =>
    if part = parentName then normalParts (done.drop 1) parts else normalParts (part :: done) parts

/-- Two rooted paths with one normal form lead to one place, as far as no file is in the way. -/
def normal (p : Path) : Path :=
  ⟨min p.slashes 1, normalParts [] p.parts⟩

def partsLt : List Text → List Text → Bool
  | _, [] => false
  | [], _ :: _ => true
  | a :: as, b :: bs => a.lt b || (a == b && partsLt as bs)

/-- The order part by part. -/
def le (p q : Path) : Bool :=
  if p.slashes = q.slashes then !partsLt q.parts p.parts else p.slashes < q.slashes

def sort (ps : List Path) : List Path :=
  ps.mergeSort le

end Path

/-- The languages whose files can be split and merged. -/
inductive Language where
  | java
  deriving DecidableEq

namespace Language

def name : Language → Text
  | java => "java"

def ofPath? (p : Path) : Option Language :=
  if p.suffix.toLower == Text.ofString ".java" then some java else none

/-- The language of a file name; an empty or absent name has none. -/
def ofFileName? : Option Text → Option Language
  | some (c :: s) => ofPath? (Path.ofText (c :: s))
  | _ => none

end Language

end JavaUnits
