import JavaUnits.Service.Objection
import JavaUnits.Service.Payload.Reader

/-!
Numbers and flags as requests write them. A text stands for a whole number if it is one as JSON
writes it, or else if it becomes one by leaving out the white space around it, a plus sign, zeros in
front, single underscores, and a fraction of zeros.
-/

namespace JavaUnits.Scalar

/-- A whole number as JSON writes it. Its length is looked at before what follows it. -/
def plainInteger (s : Text) : Except ObjectionKind Int :=
  let minus := (s.take 1).filter fun c : CodePoint => c = '-'
  let digits := Payload.wholePart (s.drop minus.length)
  let length := minus.length + digits.length
  if digits.isEmpty then .error .integerText
  else if Payload.digitLimit < length then .error .integerSize
  else if length < s.length then .error .integerText
  else if minus.isEmpty then .ok (Payload.valueOf digits)
  else .ok (-(Payload.valueOf digits : Int))

/-- The zeros that `s` begins with, and underscores among them, are left out before another digit or
a minus sign; the code point before `s`, which is `previous`, stays before a dot and at the end. -/
def dropZeros? (previous : CodePoint) : Text → Option Text
  | [] => some [previous]
  | c :: s =>
    if c = '0' ∨ c = '_' then dropZeros? c s
    else if c.isPlainDigit ∨ c = '-' then some (c :: s)
    else if c = '.' then some (previous :: c :: s)
    else none

/-- The text of a number without the zeros in front. -/
def withoutZeros? : Text → Option Text
  | [] => none
  | c :: s =>
    if c = '0' then dropZeros? c s
    else if c.isPlainDigit ∨ c = '-' then some (c :: s)
    else none

/-- A dot and one or more zeros at the end are left out; no other fraction may be there. -/
def withoutFraction? (s : Text) : Option Text :=
  let whole := s.takeWhile fun c : CodePoint => c ≠ '.'
  match s.drop whole.length with
  | [] => some s
  | _ :: fraction =>
    if !fraction.isEmpty && fraction.all fun c : CodePoint => c = '0' then some whole else none

def hasDoubleUnderscore : Text → Bool
  | c :: d :: s => (c = '_' && d = '_') || hasDoubleUnderscore (d :: s)
  | _ => false

/-- Underscores inside the text are left out, unless two of them stand together. -/
def withoutUnderscores (s : Text) : Text :=
  if s.head? = some (CodePoint.ofChar '_') || s.getLast? = some (CodePoint.ofChar '_')
      || hasDoubleUnderscore s then s
  else s.filter fun c : CodePoint => c ≠ '_'

/-- The text without a plus sign in front, which no minus sign may follow. -/
def withoutPlus? : Text → Option Text
  | [] => some []
  | c :: s =>
    if c = '+' then if s.head? = some (CodePoint.ofChar '-') then none else some s
    else some (c :: s)

/-- The text without whatever a whole number may be written with and JSON does not know. -/
def tidied? (s : Text) : Option Text := do
  let signed ← withoutPlus? (Text.trimBy CodePoint.isWhiteSpace s)
  let minus := (signed.take 1).filter fun c : CodePoint => c = '-'
  let whole ← withoutFraction? (← withoutZeros? (signed.drop minus.length))
  return minus ++ withoutUnderscores whole

def integerOfText (s : Text) : Except ObjectionKind Int :=
  match plainInteger s with
  | .error .integerText =>
    match (tidied? s).map plainInteger with
    | some (.ok n) => .ok n
    | _ => .error .integerText
  | result => result

/-- The integers of 64 bits lie between this and its negative. -/
def integerLimit : Int := 0x8000000000000000

/-- Only integers of 64 bits are taken from decimals, the least of them excepted. -/
def integerOfDecimal (d : Decimal) : Except ObjectionKind Int :=
  match d.magnitude? with
  | none => .error .notFinite
  | some x =>
    match x.whole? with
    | none => .error .integerFraction
    | some n =>
      if integerLimit ≤ n then .error .integerSize
      else if d.isNegative then .ok (-(n : Int))
      else .ok n

def toPlainLower (s : Text) : Text :=
  s.map fun c =>
    if 0x41 ≤ c.val ∧ c.val ≤ 0x5A then c.shift 0x20 else c

def flagOfText (s : Text) : Except ObjectionKind Bool :=
  let word := toPlainLower s
  if (["0", "f", "n", "no", "off", "false"].map Text.ofString).contains word then .ok false
  else if (["1", "t", "y", "on", "yes", "true"].map Text.ofString).contains word then .ok true
  else .error .flagText

def flagOfInt (n : Int) : Except ObjectionKind Bool :=
  if n = 0 then .ok false
  else if n = 1 then .ok true
  else if -integerLimit ≤ n ∧ n < integerLimit then .error .flagText
  else .error .notFlag

end JavaUnits.Scalar
