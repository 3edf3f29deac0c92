import JavaUnits.Token

/-!
Where tokens stand in a text. Positions count lines and columns of the decoded text, so that an
escape before a token shifts its column: the token is then taken to be the nearest occurrence of its
value on the line.
-/

namespace JavaUnits

/-- The lines of a text, each with the offset of its start. -/
abbrev Layout := List (Nat × Text)

namespace Layout

def rowsFrom (start : Nat) : List Text → Layout
  | [] => []
  | line :: lines => (start, line) :: rowsFrom (start + line.length + 1) lines

def ofText (s : Text) : Layout :=
  rowsFrom 0 s.lines

def distance (m n : Nat) : Nat :=
  max m n - min m n

/-- The first of the places that are nearest to `target`. -/
def nearest? (target : Nat) : List Nat → Option Nat
  | [] => none
  | place :: places =>
    match nearest? target places with
    | none => some place
    | some other => some (if distance other target < distance place target then other else place)

def holdsAt (line value : Text) (place : Nat) : Bool :=
  value.isPrefixOf (line.drop place)

/-- Where `value` stands in a line, when it is reported at `column`. -/
def placeInLine (line value : Text) (column : Nat) : Nat :=
  if holdsAt line value (column - 1) then column - 1
  else if holdsAt line value column then column
  else (nearest? (column - 1) (Text.occurrences value line 0)).getD (column - 1)

/-- The offset of a token, unless its line is past the last one. -/
def offset? (layout : Layout) (t : Token) : Option Nat :=
  (layout[t.position.line - 1]?).map fun (start, line) =>
    start + placeInLine line t.value t.position.column

end Layout

end JavaUnits
