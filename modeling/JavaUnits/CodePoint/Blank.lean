import JavaUnits.CodePoint

/-!
Blanks: the code points with the property White_Space and the four information separators.
-/

namespace JavaUnits.CodePoint

def blanks : List (Nat × Nat) :=
  [(0x9, 0xD), (0x1C, 0x20), (0x85, 0x85), (0xA0, 0xA0), (0x1680, 0x1680), (0x2000, 0x200A),
   (0x2028, 0x2029), (0x202F, 0x202F), (0x205F, 0x205F), (0x3000, 0x3000)]

def isBlank (c : CodePoint) : Bool :=
  c.within blanks

/-- A blank that the property alone makes one. -/
def isWhiteSpace (c : CodePoint) : Bool :=
  c.isBlank && !(0x1C ≤ c.val && c.val ≤ 0x1F)

/-- A blank that stays on its line. -/
def isSpaceOrTab (c : CodePoint) : Bool :=
  c = ' ' || c = '\t'

end JavaUnits.CodePoint
