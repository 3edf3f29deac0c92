import JavaUnits.Policy
import JavaUnits.Service.Payload
import JavaUnits.Text.Quoted

/-!
Objections to a request: what is wrong at which place, with the value found there. A response that
tells of them repeats the value.
-/

namespace JavaUnits

inductive ObjectionKind where
  | missing
  | unreadable
  | notRecord
  | notMapping
  | notText
  | notUnicode
  | tooShort
  | notPolicy
  | notInteger
  | integerText
  | integerFraction
  | integerSize
  | notFinite
  | notFlag
  | flagText
  deriving DecidableEq

namespace ObjectionKind

def name : ObjectionKind → Text
  | missing => "missing"
  | unreadable => "json_invalid"
  | notRecord => "model_attributes_type"
  | notMapping => "dict_type"
  | notText => "string_type"
  | notUnicode => "string_unicode"
  | tooShort => "string_too_short"
  | notPolicy => "enum"
  | notInteger => "int_type"
  | integerText => "int_parsing"
  | integerFraction => "int_from_float"
  | integerSize => "int_parsing_size"
  | notFinite => "finite_number"
  | notFlag => "bool_type"
  | flagText => "bool_parsing"

/-- The policies in quotes, as alternatives. -/
def policyChoices : Text :=
  let quoted := Policy.all.map fun p => p.name.quoted
  Text.join ", " quoted.dropLast ++ Text.ofString " or " ++ quoted.getLast?.getD []

def message : ObjectionKind → Text
  | missing => "Field required"
  | unreadable => "JSON decode error"
  | notRecord => "Input should be a valid dictionary or object to extract fields from"
  | notMapping => "Input should be a valid dictionary"
  | notText => "Input should be a valid string"
  | notUnicode =>
    "Input should be a valid string, unable to parse raw data as a unicode string"
  | tooShort => "String should have at least 1 character"
  | notPolicy => Text.ofString "Input should be " ++ policyChoices
  | notInteger => "Input should be a valid integer"
  | integerText => "Input should be a valid integer, unable to parse string as an integer"
  | integerFraction => "Input should be a valid integer, got a number with a fractional part"
  | integerSize => "Unable to parse input string as an integer, exceeded maximum size"
  | notFinite => "Input should be a finite number"
  | notFlag => "Input should be a valid boolean"
  | flagText => "Input should be a valid boolean, unable to interpret input"

/-- What the message was made with, if anything. -/
def context : ObjectionKind → List (String × Payload)
  | tooShort => [("min_length", .int 1)]
  | notPolicy => [("expected", .text policyChoices)]
  | _ => []

end ObjectionKind

structure Objection where
  place : List Text
  kind : ObjectionKind
  /-- What stands at the place, or in whose midst something is missing. -/
  found : Payload

namespace Objection

def payload (o : Objection) : Payload :=
  let context := o.kind.context
  let members := [("type", .text o.kind.name), ("loc", Payload.texts o.place),
    ("msg", .text o.kind.message), ("input", o.found)]
  Payload.ofMembers
    (if context.isEmpty then members else members ++ [("ctx", Payload.ofMembers context)])

end Objection

/-- A value, or all objections to what should have been one. -/
abbrev Checked (α : Type) := Except (List Objection) α

namespace Checked

/-- Both values, or the objections to both. -/
def both {α β : Type} : Checked α → Checked β → Checked (α × β)
  | .ok a, .ok b => .ok (a, b)
  | .ok _, .error e => .error e
  | .error e, .ok _ => .error e
  | .error e, .error f => .error (e ++ f)

def all {α : Type} : List (Checked α) → Checked (List α)
  | [] => .ok []
  | c :: cs => (both c (all cs)).map fun (a, as) => a :: as

end Checked

end JavaUnits
