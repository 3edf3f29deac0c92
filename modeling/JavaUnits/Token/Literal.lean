import JavaUnits.Token

/-!
String and character literals. Both run to the next quote like the first one; a backslash shields
the code point after it, which is a letter of an escape or an octal digit. Line breaks are allowed.
-/

namespace JavaUnits.Token

inductive LiteralFailure where
  | unterminated
  | illegalEscape (c : CodePoint)
  deriving DecidableEq

def escapable : Text :=
  "btnfru\"'\\01234567"

/-- The length of a literal whose opening quote and `passed - 1` code points more are passed. -/
def literalLength (quote : CodePoint) (passed : Nat) : Text → Except LiteralFailure Nat
  | [] => .error .unterminated
  | [c] => if c = quote then .ok (passed + 1) else .error .unterminated
  | c :: d :: s =>
    if c = quote then .ok (passed + 1)
    else if c = '\\' then
      if escapable.contains d then literalLength quote (passed + 2) s
      else .error (.illegalEscape d)
    else literalLength quote (passed + 1) (d :: s)

end JavaUnits.Token
