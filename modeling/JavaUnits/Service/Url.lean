import JavaUnits.Text
import JavaUnits.CodePoint.Digit

/-!
Paths of URLs. A host, a query and a fragment are no part of the path; steps back and steps that
stay are taken out, and escapes decoded, as often as a request is passed on.
-/

namespace JavaUnits.Url

def isSlash (c : CodePoint) : Bool :=
  c = '/'

/-- What a percent sign and two hexadecimal digits stand for, byte by byte. -/
def decodePercents : Text → Text
  | c :: d :: e :: s =>
    if c = '%' ∧ d.isPlainHexDigit ∧ e.isPlainHexDigit then
      let byte := 16 * d.hexValue?.getD 0 + e.hexValue?.getD 0
      (CodePoint.ofNat? byte).getD c :: decodePercents s
    else c :: decodePercents (d :: e :: s)
  | s => s

/-- The parts of a path without single dots, and without double dots and the parts before them. An
empty part at the front stays. -/
def normalParts (done : List Text) : List Text → List Text
  | [] => done.reverse
  | part :: parts =>
    if part = Text.ofString "." then normalParts done parts
    else if part = Text.ofString ".." then
      normalParts (if done = [[]] then done else done.drop 1) parts
    else normalParts (part :: done) parts

/-- What a URL begins with before its query and fragment, without a host. -/
def hostless (url : Text) : Text :=
  let front := url.takeWhile fun c : CodePoint => c ≠ '?' && c ≠ '#'
  if Text.startsWith front "//" then (front.drop 2).dropWhile fun c => !isSlash c else front

/-- The path of a URL, with a slash in front and, save for the root, none at the end. -/
def path (url : Text) : Text :=
  let full := CodePoint.ofChar '/' :: (hostless url).dropWhile isSlash
  let normal := Text.join "/" (normalParts [] (full.splitOn '/'))
  let decoded := decodePercents (decodePercents normal)
  let trimmed := (decoded.reverse.dropWhile isSlash).reverse
  if trimmed.isEmpty then "/" else trimmed

end JavaUnits.Url
