import JavaUnits.Service.Decimal
import JavaUnits.Text

/-!
Payloads: the values of requests and responses.
-/

namespace JavaUnits

inductive Payload where
  | null
  | bool (b : Bool)
  | int (n : Int)
  | decimal (d : Decimal)
  /-- A number that is infinite, or none. -/
  | nonfinite
  | text (s : Text)
  | list (items : List Payload)
  | record (members : List (Text × Payload))
  deriving Inhabited

namespace Payload

def texts (ts : List Text) : Payload :=
  .list (ts.map .text)

def ofMembers (members : List (String × Payload)) : Payload :=
  .record (members.map fun (name, p) => (Text.ofString name, p))

/-- The value of a member of a record. -/
def member? (name : Text) (members : List (Text × Payload)) : Option Payload :=
  members.lookup name

/-- Gives a member a value; one that is there already keeps its place. -/
def putMember (name : Text) (value : Payload) : List (Text × Payload) → List (Text × Payload)
  | [] => [(name, value)]
  | (key, old) :: members =>
    if key = name then (key, value) :: members else (key, old) :: putMember name value members

mutual

/-- Whether all numbers are finite. -/
def isFinite : Payload → Bool
  | nonfinite => false
  | decimal d => d.magnitude?.isSome
  | list items => areFinite items
  | record members => membersAreFinite members
  | _ => true

def areFinite : List Payload → Bool
  | [] => true
  | item :: items => isFinite item && areFinite items

def membersAreFinite : List (Text × Payload) → Bool
  | [] => true
  | (_, value) :: members => isFinite value && membersAreFinite members

end

end Payload

end JavaUnits
