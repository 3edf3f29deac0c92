import JavaUnits.Service.Decimal.Shortest
import JavaUnits.Service.Payload
import JavaUnits.Text.Quoted

/-!
Writing payloads as JSON text, in one line without blanks or with a line for every part.
-/

namespace JavaUnits.Payload

def escapeShort? (c : CodePoint) : Option Text :=
  if c = '"' then some "\\\""
  else if c = '\\' then some "\\\\"
  else if c = '\n' then some "\\n"
  else if c = '\r' then some "\\r"
  else if c = '\t' then some "\\t"
  else if c = '\x0c' then some "\\f"
  else if c = '\x08' then some "\\b"
  else none

def escapeUnit (n : Nat) : Text :=
  Text.ofString "\\u" ++ Text.Quoted.hexDigits 4 n

/-- A code point in a string. With `ascii` set no others than those of the basic alphabet are
written as they are. -/
def escape (ascii : Bool) (c : CodePoint) : Text :=
  match escapeShort? c with
  | some short => short
  | none =>
    if c.val < 0x20 then escapeUnit c.val
    else if !ascii || c.val < 0x7F then [c]
    else if c.val < 0x10000 then escapeUnit c.val
    else
      let n := c.val - 0x10000
      escapeUnit (0xD800 + n / 0x400) ++ escapeUnit (0xDC00 + n % 0x400)

def string (ascii : Bool) (s : Text) : Text :=
  CodePoint.ofChar '"' :: s.flatMap (escape ascii) ++ Text.ofString "\""

/-- What stands between the parts of a list or record. -/
structure Style where
  ascii : Bool
  colon : Text
  /-- The text that begins a line at a depth, if parts have lines of their own. -/
  newLine : Nat → Text

def compactStyle : Style :=
  { ascii := false, colon := ":", newLine := fun _ => [] }

def indentedStyle : Style :=
  { ascii := true
    colon := ": "
    newLine := fun depth =>
      CodePoint.ofChar '\n' :: List.replicate (2 * depth) (CodePoint.ofChar ' ') }

/-- Parts between brackets, or the brackets alone. -/
def enclose (style : Style) (depth : Nat) (opening closing : CodePoint) (parts : List Text) :
    Text :=
  if parts.isEmpty then [opening, closing]
  else
    opening :: style.newLine (depth + 1)
      ++ Text.join (CodePoint.ofChar ',' :: style.newLine (depth + 1)) parts
      ++ style.newLine depth ++ [closing]

mutual

def write (style : Style) (depth : Nat) : Payload → Text
  | null => "null"
  | bool b => if b then Text.ofString "true" else Text.ofString "false"
  | int n => Text.ofInt n
  | decimal d => d.text
  | nonfinite => "NaN"
  | text s => string style.ascii s
  | list items => enclose style depth '[' ']' (writeItems style (depth + 1) items)
  | record members =>
    enclose style depth '\x7b' '\x7d' (writeMembers style (depth + 1) members)

def writeItems (style : Style) (depth : Nat) : List Payload → List Text
  | [] => []
  | item :: items => write style depth item :: writeItems style depth items

def writeMembers (style : Style) (depth : Nat) : List (Text × Payload) → List Text
  | [] => []
  | (name, value) :: members =>
    (string style.ascii name ++ style.colon ++ write style depth value)
      :: writeMembers style depth members

end

def compact (p : Payload) : Text :=
  p.write compactStyle 0

def indented (p : Payload) : Text :=
  p.write indentedStyle 0

end JavaUnits.Payload
