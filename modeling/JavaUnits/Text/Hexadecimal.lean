import JavaUnits.CodePoint.Digit
import JavaUnits.Text

/-!
Whole numbers to base sixteen, written with some freedom: white space around the number, a sign,
the mark `0x`, and single underscores between the digits and after the mark. Digits of any script
count.
-/

namespace JavaUnits.Text.Hexadecimal

/-- The value of digits with single underscores between them. -/
def digits? (value : Nat) : Text → Option Nat
  | [] => some value
  | [c] => c.hexValue?.map (16 * value + ·)
  | c :: d :: s =>
    match c.hexValue? with
    | none => none
    | some digit =>
      if d = '_' then if s.isEmpty then none else digits? (16 * value + digit) s
      else digits? (16 * value + digit) (d :: s)

def magnitude? (s : Text) : Option Nat :=
  let digits : Text :=
    match s with
    | zero :: mark :: s' =>
      if zero.decimalValue? = some 0 ∧ (mark = 'x' ∨ mark = 'X') then
        if s'.head? = some (CodePoint.ofChar '_') then s'.drop 1 else s'
      else s
    | _ => s
  if digits.isEmpty then none else digits? 0 digits

def read? (s : Text) : Option Int :=
  let core := trimBy CodePoint.isWhiteSpace s
  match core with
  | [] => none
  | c :: s' =>
    if c = '-' then (magnitude? s').map fun n => -(n : Int)
    else if c = '+' then (magnitude? s').map Int.ofNat
    else (magnitude? core).map Int.ofNat

end JavaUnits.Text.Hexadecimal
