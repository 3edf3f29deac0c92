import JavaUnits.Service.Decimal
import JavaUnits.Text

/-!
The shortest decimal that reads back as a binary number, and how it is written: with a point among
its digits or the zeros beside them while the number is neither large nor small, and else with an
exponent.
-/

namespace JavaUnits

namespace Binary

/-- The power of ten at the first digit of `a / b`. -/
def leadingPower (a b : Nat) : Int :=
  let guess := Decimal.digitCount a - Decimal.digitCount b
  if b * Decimal.power guess ≤ a * Decimal.power (-guess) then guess else guess - 1

/-- The two decimals of a number of digits between which a number lies, the nearer first. -/
def neighbours (x : Binary) (count : Nat) : List Decimal :=
  let last := leadingPower x.numerator x.denominator - count + 1
  let a := x.numerator * Decimal.power (-last)
  let b := x.denominator * Decimal.power last
  let nearer := roundDiv a b
  let other := if nearer = a / b then nearer + 1 else a / b
  [⟨false, nearer, last⟩, ⟨false, other, last⟩]

def readsBack (x : Binary) (d : Decimal) : Bool :=
  (d.magnitude?.map x.equal).getD false

/-- Seventeen digits always read back. -/
def shortest (x : Binary) : Decimal :=
  let tried := (List.range 17).flatMap fun n => x.neighbours (n + 1)
  (tried.find? x.readsBack).getD ⟨false, 0, 0⟩

end Binary

namespace Decimal

def zeros (n : Int) : Text :=
  List.replicate n.toNat (CodePoint.ofChar '0')

/-- The digits with `point` of them before the point, or the first before it and an exponent.
Numbers from a ten-thousandth up to ten to the sixteenth go without an exponent. -/
def place (digits : Text) (point : Int) : Text :=
  let length : Int := digits.length
  if -4 < point ∧ point ≤ 16 then
    if point ≤ 0 then Text.ofString "0." ++ zeros (-point) ++ digits
    else if length ≤ point then digits ++ zeros (point - length) ++ Text.ofString ".0"
    else digits.take point.toNat ++ Text.ofString "." ++ digits.drop point.toNat
  else
    let exponent := Text.ofNat (point - 1).natAbs
    let fraction := digits.drop 1
    digits.take 1 ++ (if fraction.isEmpty then [] else CodePoint.ofChar '.' :: fraction)
      ++ Text.ofString (if point ≤ 0 then "e-" else "e+") ++ zeros (2 - exponent.length) ++ exponent

/-- The text of the binary number that the decimal is taken for. -/
def text (d : Decimal) : Text :=
  let sign := Text.ofString (if d.isNegative then "-" else "")
  match d.magnitude? with
  | none => sign ++ Text.ofString "Infinity"
  | some x =>
    if x.significand = 0 then sign ++ Text.ofString "0.0"
    else
      let short := x.shortest
      let digits := Text.ofNat short.significand
      let point := digits.length + short.exponent
      let significant := (digits.reverse.dropWhile fun c : CodePoint => c = '0').reverse
      sign ++ place significant point

end Decimal

end JavaUnits
