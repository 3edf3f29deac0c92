import JavaUnits.CodePoint.Case
import JavaUnits.Text

/-!
Upper and lower case of a text. Lower case looks at the neighbours of a capital sigma: it takes its
final form when a cased letter stands before it in the word and none after it.
-/

namespace JavaUnits.Text

def capitalSigma : CodePoint := 'Σ'

def smallSigma : CodePoint := 'σ'

def finalSigma : CodePoint := 'ς'

def meetsCased (s : Text) : Bool :=
  ((s.dropWhile CodePoint.isCaseless).head?.map CodePoint.isCased).getD false

/-- The lower case of `s`, where `before` holds what precedes it, the nearest first. -/
def lowerAfter (before : Text) : Text → Text
  | [] => []
  | c :: s =>
    let small : Text :=
      if c = capitalSigma then
        [if before.meetsCased && !meetsCased s then finalSigma else smallSigma]
      else if c = 'İ' then ['i', '\u0307']
      else [c.toLower]
    small ++ lowerAfter (c :: before) s

def toLower (s : Text) : Text :=
  lowerAfter [] s

def toUpper (s : Text) : Text :=
  s.flatMap CodePoint.toUpper

end JavaUnits.Text
