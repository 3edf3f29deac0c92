import JavaUnits.Text

/-!
What is done when several files of a merge declare a main method.
-/

namespace JavaUnits

inductive Policy where
  | last
  | first
  | fail
  deriving DecidableEq, Inhabited

namespace Policy

def name : Policy → Text
  | last => "last"
  | first => "first"
  | fail => "fail"

def all : List Policy :=
  [last, first, fail]

def ofName? (name : Text) : Option Policy :=
  all.find? fun p => p.name == name

def choices : Text :=
  Text.join ", " (all.map name)

/-- The policy asked for, or the configured one where none or an empty one is asked for. -/
def effective (asked : Option Text) (configured : Text) : Text :=
  match asked with
  | some (c :: s) => c :: s
  | _ => configured

end Policy

end JavaUnits
