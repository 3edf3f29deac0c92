import JavaUnits.Item

/-!
Import declarations: how one is read from an item, how it is written, and which type it reaches for.
-/

namespace JavaUnits

structure Import where
  name : Text
  isStatic : Bool
  deriving DecidableEq

namespace Import

/-- The declaration of an item that begins with the import keyword. -/
def ofItem (item : Item) : Import :=
  match item.drop 1 with
  | t :: rest =>
    if t.isModifier && t.value == Text.ofString "static" then ⟨Item.joinValues rest, true⟩
    else ⟨Item.joinValues (t :: rest), false⟩
  | [] => ⟨[], false⟩

def text (i : Import) : Text :=
  Text.ofString "import " ++ (if i.isStatic then Text.ofString "static " else []) ++ i.name
    ++ Text.ofString ";"

def isWildcard (i : Import) : Bool :=
  i.name.endsWith ".*"

def parts (i : Import) : List Text :=
  i.name.splitOn '.'

def simpleName? (i : Import) : Option Text :=
  if i.isWildcard then none else i.parts.getLast?

/-- The part before the last: of a static import, the type whose members it names. -/
def ownerName? (i : Import) : Option Text :=
  i.parts.reverse[1]?

/-- Whether the import reaches for one of the types that are `defined` beside it. -/
def isSelf (defined : List Text) (i : Import) : Bool :=
  ((if i.isStatic then i.ownerName? else i.simpleName?).map defined.contains).getD false

end Import

end JavaUnits
