import JavaUnits.CodePoint.Printable
import JavaUnits.Text

/-!
Quoting a text for a message. The quotes are single, unless the text holds single quotes and no
double ones. Backslashes, the quotes themselves and unprintable code points are escaped, the latter
by their number in two, four or eight digits.
-/

namespace JavaUnits.Text.Quoted

def hexDigits (width n : Nat) : Text :=
  let digits := Nat.toDigits 16 n
  (List.replicate (width - digits.length) '0' ++ digits).map CodePoint.ofChar

def escape (quote c : CodePoint) : Text :=
  if c = quote ∨ c = '\\' then ['\\', c]
  else if c = '\n' then "\\n"
  else if c = '\r' then "\\r"
  else if c = '\t' then "\\t"
  else if c.isPrintable then [c]
  else if c.val < 0x100 then Text.ofString "\\x" ++ hexDigits 2 c.val
  else if c.val < 0x10000 then Text.ofString "\\u" ++ hexDigits 4 c.val
  else Text.ofString "\\U" ++ hexDigits 8 c.val

def quoteFor (s : Text) : CodePoint :=
  if s.contains '\'' && !s.contains '"' then '"' else '\''

end Quoted

def quoted (s : Text) : Text :=
  let quote := Quoted.quoteFor s
  quote :: s.flatMap (Quoted.escape quote) ++ [quote]

end JavaUnits.Text
