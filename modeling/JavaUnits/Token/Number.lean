import JavaUnits.CodePoint.Digit
import JavaUnits.Token

/-!
Number literals. Each reader is given the text from some place on and answers with the length of
what it takes from there. Digits may have underscores between them, and one letter L may follow any
group of digits. A group that would begin at the end of the text makes the literal cut off.
-/

namespace JavaUnits.Token

inductive NumberFailure where
  | cutOff
  /-- A fraction to base sixteen needs an exponent; `rest` stands where it is missing. -/
  | missingExponent (rest : Text)
  deriving DecidableEq

def headIn (choices : Text) : Text → Bool
  | [] => false
  | c :: _ => choices.contains c

/-- The length of a group of digits, up to its last digit, and of the letter after the group. An
underscore that follows the last digit takes the letter's place. -/
def digitsLength (isDigit : CodePoint → Bool) (s : Text) : Except NumberFailure Nat :=
  if s.isEmpty then .error .cutOff
  else
    let run := s.takeWhile fun c : CodePoint => isDigit c || c = '_'
    let digits := run.reverse.dropWhile fun c : CodePoint => c = '_'
    .ok (digits.length + if headIn "lL" (s.drop run.length) then 1 else 0)

def plainDigitsLength (s : Text) : Except NumberFailure Nat :=
  digitsLength CodePoint.isPlainDigit s

/-- A digit group, with an optional sign in front. -/
def signedLength (s : Text) : Except NumberFailure Nat := do
  let sign := if headIn "-+" s then 1 else 0
  return sign + (← plainDigitsLength (s.drop sign))

/-- `base` taken already, and as much of what follows it as `more` takes, if it begins with one of
`marks`. -/
def extend (s : Text) (base : Nat) (marks : Text) (more : Text → Except NumberFailure Nat) :
    Except NumberFailure Nat := do
  if headIn marks (s.drop base) then
    return base + 1 + (← more (s.drop (base + 1)))
  else
    return base

def decimalLength (s : Text) : Except NumberFailure (Kind × Nat) := do
  let whole ← plainDigitsLength s
  if headIn ".eEfFdD" (s.drop whole) then
    let fraction ← extend s whole "." plainDigitsLength
    let exponent ← extend s fraction "eE" signedLength
    let suffix ← extend s exponent "fFdD" fun _ => pure 0
    return (.decimalFloat, suffix)
  else
    return (.decimalInteger, whole)

def hexLength (s : Text) : Except NumberFailure (Kind × Nat) := do
  let whole := 2 + (← digitsLength CodePoint.isPlainHexDigit (s.drop 2))
  if headIn ".pP" (s.drop whole) then
    let fraction ← extend s whole "." (digitsLength CodePoint.isPlainHexDigit)
    if headIn "pP" (s.drop fraction) then
      let exponent ← extend s fraction "pP" signedLength
      let suffix ← extend s exponent "fFdD" fun _ => pure 0
      return (.hexFloat, suffix)
    else
      throw (.missingExponent (s.drop fraction))
  else
    return (.hexInteger, whole)

/-- The kind and length of the number that `s` begins with; `s` begins with a digit, or with a dot
and a digit. -/
def numberLength (s : Text) : Except NumberFailure (Kind × Nat) :=
  if s.head? = some (CodePoint.ofChar '0') then
    let rest := s.drop 1
    if rest.isEmpty then throw .cutOff
    else if headIn "xX" rest then hexLength s
    else if headIn "bB" rest then do
      return (.binaryInteger, 2 + (← digitsLength CodePoint.isBinaryDigit (s.drop 2)))
    else if headIn "01234567" rest then do
      return (.octalInteger, 1 + (← digitsLength CodePoint.isOctalDigit rest))
    else decimalLength s
  else decimalLength s

end JavaUnits.Token
