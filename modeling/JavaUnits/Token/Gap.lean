import JavaUnits.Token

/-!
What may stand between tokens: blanks and comments. A line comment ends with its line, a block
comment at the first mark that closes it; a block comment that is never closed is no part of a gap.
-/

namespace JavaUnits.Token

/-- The length of `s` up to and including its first line feed, or all of it. -/
def lineLength (s : Text) : Nat :=
  min ((s.takeWhile fun c : CodePoint => c ≠ '\n').length + 1) s.length

/-- The length of `s` up to and including the first mark that closes a comment, with `passed` code
points before it. -/
def closingLength? (passed : Nat) : Text → Option Nat
  | [] => none
  | [_] => none
  | c :: d :: s => if c = '*' ∧ d = '/' then some (passed + 2)
    else closingLength? (passed + 1) (d :: s)

def commentLength? : Text → Option Nat
  | c :: d :: s =>
    if c = '/' ∧ d = '/' then some (2 + lineLength s)
    else if c = '/' ∧ d = '*' then (closingLength? 0 s).map (2 + ·)
    else none
  | _ => none

def gapLength : Text → Nat
  | [] => 0
  | c :: s =>
    if c.isBlank then
      let blanks := 1 + (s.takeWhile CodePoint.isBlank).length
      blanks + gapLength (s.drop (blanks - 1))
    else
      match commentLength? (c :: s) with
      | none => 0
      | some n => n + gapLength (s.drop (n - 1))
termination_by s => s.length

end JavaUnits.Token
