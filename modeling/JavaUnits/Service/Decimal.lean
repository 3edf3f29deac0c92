/-!
Decimal fractions as binary floating point takes them: rounded to 53 bits, a tie to the even
neighbour. Numbers too small to have 53 bits have fewer, and numbers too large have no place at all.
-/

namespace JavaUnits

/-- The quotient, rounded to the nearest whole number and to an even one in a tie. -/
def roundDiv (a b : Nat) : Nat :=
  let quotient := a / b
  let rest := a % b
  if 2 * rest < b ∨ (2 * rest = b ∧ quotient % 2 = 0) then quotient else quotient + 1

/-- The number `significand` times two to the `exponent`. -/
structure Binary where
  significand : Nat
  exponent : Int
  deriving DecidableEq

namespace Binary

def zero : Binary :=
  ⟨0, 0⟩

/-- Two to the `n`, or one if that is no whole number. -/
def bit (n : Int) : Nat :=
  Nat.pow 2 n.toNat

/-- The exponent of the last bit that is kept of `a / b`. -/
def lastBit (a b : Nat) : Int :=
  let guess : Int := (a.log2 : Int) - b.log2
  let reached : Bool :=
    if 0 ≤ guess then b * bit guess ≤ a else b ≤ a * bit (-guess)
  let last := (if reached then guess else guess - 1) - 52
  if last < -1074 then -1074 else last

/-- The number nearest to `a / b`, if it is not too large. -/
def ofQuotient? (a b : Nat) : Option Binary :=
  let last := lastBit a b
  let x : Binary := ⟨roundDiv (a * bit (-last)) (b * bit last), last⟩
  if bit 1024 ≤ x.significand * bit last then none else some x

def numerator (x : Binary) : Nat :=
  x.significand * bit x.exponent

def denominator (x : Binary) : Nat :=
  bit (-x.exponent)

/-- The number, if it is whole. -/
def whole? (x : Binary) : Option Nat :=
  if x.numerator % x.denominator = 0 then some (x.numerator / x.denominator) else none

/-- Whether two forms are of one number. -/
def equal (x y : Binary) : Bool :=
  x.numerator * y.denominator == y.numerator * x.denominator

end Binary

/-- The number `significand` times ten to the `exponent`, or its opposite. -/
structure Decimal where
  isNegative : Bool
  significand : Nat
  exponent : Int
  deriving DecidableEq

namespace Decimal

/-- Ten to the `n`, or one if that is no whole number. -/
def power (n : Int) : Nat :=
  Nat.pow 10 n.toNat

def digitCount (n : Nat) : Int :=
  (Nat.toDigits 10 n).length

/-- The size of the number, if it is not too large. Numbers far outside the range are decided by the
number of their digits. -/
def magnitude? (d : Decimal) : Option Binary :=
  if d.significand = 0 then some .zero
  else
    let point := digitCount d.significand + d.exponent
    if 310 < point then none
    else if point < -330 then some .zero
    else Binary.ofQuotient? (d.significand * power d.exponent) (power (-d.exponent))

end Decimal

end JavaUnits
