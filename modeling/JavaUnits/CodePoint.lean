/-!
Code points: the numbers below 1114112. Surrogates are among them, because an escape in a source
text can denote one; `Char` has no place for them.

Properties of code points are kept as sorted lists of ranges and read with `within`.
-/

namespace JavaUnits

structure CodePoint where
  val : Nat
  val_lt : val < 0x110000
  deriving DecidableEq

namespace CodePoint

def ofChar (c : Char) : CodePoint :=
  ⟨c.toNat, by
    have h : c.toNat.isValidChar := c.valid
    simp only [Nat.isValidChar] at h
    omega⟩

instance : Coe Char CodePoint := ⟨ofChar⟩

instance : Inhabited CodePoint := ⟨ofChar ' '⟩

def ofNat? (n : Nat) : Option CodePoint :=
  if h : n < 0x110000 then some ⟨n, h⟩ else none

def isSurrogate (c : CodePoint) : Bool :=
  0xD800 ≤ c.val && c.val ≤ 0xDFFF

def toChar? (c : CodePoint) : Option Char :=
  if h : c.val.isValidChar then some (Char.ofNatAux c.val h) else none

/-- Whether `c` lies in one of the ranges, which ascend and have both ends included. -/
def within (c : CodePoint) : List (Nat × Nat) → Bool
  | [] => false
  | (low, high) :: ranges =>
    if c.val < low then false
    else if c.val ≤ high then true
    else c.within ranges

/-- The code point `by` places further, or `c` itself where there is none. -/
def shift (c : CodePoint) (distance : Int) : CodePoint :=
  (ofNat? ((c.val : Int) + distance).toNat).getD c

end CodePoint

end JavaUnits
