import JavaUnits.Text.Escape
import JavaUnits.Token.Gap
import JavaUnits.Token.Literal
import JavaUnits.Token.Number
import JavaUnits.Token.Word

/-!
Reading tokens. `Scan.run` cuts a text into pieces, each a gap and the lexeme after it, and tells
how it ended: with a last gap, or stuck at a place where no lexeme can be read. The pieces and what
is left add up to the text again. Positions come from the gaps and lexemes passed, and messages
from the place where the scan stuck.
-/

namespace JavaUnits

/-- The complaints that name a place in the text. -/
inductive Complaint where
  | unknownToken
  | unterminatedComment
  | unterminatedLiteral
  | illegalEscape
  | invalidUnicodeEscape
  | invalidHexFloat
  deriving DecidableEq

inductive LexError where
  /-- The complaint, the text it shows, the line's number and what is shown of the line. -/
  | at (complaint : Complaint) (shown : Text) (line : Nat) (excerpt : Text)
  | numberCutOff
  | missingExponentAtEnd
  | negativeEscape
  deriving DecidableEq

def Complaint.text : Complaint → Text
  | unknownToken => "Could not process token"
  | unterminatedComment => "Unterminated block comment"
  | unterminatedLiteral => "Unterminated character/string literal"
  | illegalEscape => "Illegal escape character"
  | invalidUnicodeEscape => "Invalid unicode escape"
  | invalidHexFloat => "Invalid hex float literal"

def LexError.message : LexError → Text
  | .at complaint shown line excerpt =>
    "Java lexer error: " ++ complaint.text ++ " at \"" ++ shown ++ "\", line " ++ Text.ofNat line
      ++ ": " ++ excerpt
  | numberCutOff =>
    "Failed to tokenize Java code: 'in <string>' requires string as left operand, not NoneType"
  | missingExponentAtEnd => "Failed to tokenize Java code: string index out of range"
  | negativeEscape => "Failed to tokenize Java code: chr() arg not in range(0x110000)"

namespace Token

/-- Why no lexeme can be read. -/
inductive Stuck where
  /-- Something opened is never closed; the message shows what follows the last token. -/
  | unclosed (complaint : Complaint)
  | at (complaint : Complaint) (shown : CodePoint)
  | numberCutOff
  | missingExponentAtEnd
  deriving DecidableEq

def separators : Text :=
  "()\x7b\x7d[];,."

/-- No operator comes before one that it begins. -/
def operators : List Text :=
  [">>>=", ">>=", "<<=", "...", "%=", "^=", "|=", "&=", "/=", "*=", "-=", "+=", "<<", "--", "++",
   "||", "&&", "!=", ">=", "<=", "==", "->", "::", "%", "^", "|", "&", "/", "*", "-", "+", ":",
   "?", "~", "!", "<", ">", "="].map Text.ofString

/-- The length of the longest operator that `s` begins with. -/
def operatorLength? (s : Text) : Option Nat :=
  (operators.find? fun operator => operator.isPrefixOf s).map List.length

def readNumber (s : Text) : Except Stuck (Kind × Nat) :=
  match numberLength s with
  | .ok found => .ok found
  | .error .cutOff => .error .numberCutOff
  | .error (.missingExponent []) => .error .missingExponentAtEnd
  | .error (.missingExponent (c :: _)) => .error (.at .invalidHexFloat c)

/-- The kind and length of the lexeme that begins with `c` and goes on in `s`; neither blank nor
comment stands there. -/
def readLexeme (c : CodePoint) (s : Text) : Except Stuck (Kind × Nat) :=
  if c = '/' ∧ s.head? = some (CodePoint.ofChar '*') then .error (.unclosed .unterminatedComment)
  else if Text.startsWith (c :: s) "..." then .ok (.operator, 3)
  else if c = '@' then .ok (.atSign, 1)
  else if c = '.' ∧ (s.head?.map CodePoint.isDigit).getD false then readNumber (c :: s)
  else if separators.contains c then .ok (.separator, 1)
  else if c = '\'' ∨ c = '"' then
    match literalLength c 1 s with
    | .ok n => .ok (.string, n)
    | .error .unterminated => .error (.unclosed .unterminatedLiteral)
    | .error (.illegalEscape d) => .error (.at .illegalEscape d)
  else if c.isPlainDigit then readNumber (c :: s)
  else if c.startsName then
    let n := 1 + (s.takeWhile CodePoint.continuesName).length
    .ok (kindOfWord ((c :: s).take n), n)
  else
    match operatorLength? (c :: s) with
    | some n => .ok (.operator, n)
    | none => .error (.at .unknownToken c)

end Token

/-- A lexeme with the gap before it. -/
structure Piece where
  gap : Text
  kind : Kind
  lexeme : Text
  deriving DecidableEq

namespace Scan

inductive Ending where
  | done (gap : Text)
  | stuck (reason : Token.Stuck) (gap rest : Text)
  deriving DecidableEq

/-- What is left of the text where the scan ended. -/
def Ending.text : Ending → Text
  | done gap => gap
  | stuck _ gap rest => gap ++ rest

def run (s : Text) : List Piece × Ending :=
  let gap := s.take (Token.gapLength s)
  match h : s.drop (Token.gapLength s) with
  | [] => ([], .done gap)
  | c :: rest =>
    match Token.readLexeme c rest with
    | .error reason => ([], .stuck reason gap (c :: rest))
    | .ok (kind, n) =>
      have : rest.length < s.length := by
        have := congrArg List.length h
        simp only [List.length_drop, List.length_cons] at this
        omega
      let (pieces, ending) := run (rest.drop (n - 1))
      (⟨gap, kind, c :: rest.take (n - 1)⟩ :: pieces, ending)
termination_by s.length
decreasing_by
  simp only [List.length_drop]
  omega

/-- The tokens of the pieces, the first of which is scanned from `p` on. -/
def tokensFrom (p : Position) : List Piece → List Token
  | [] => []
  | piece :: pieces =>
    let q := p.passAll piece.gap
    ⟨piece.kind, piece.lexeme, q⟩ :: tokensFrom (q.passToken piece.lexeme) pieces

def tokens (pieces : List Piece) : List Token :=
  tokensFrom .start pieces

/-- The position after the pieces, when the first is scanned from `p` on. -/
def positionFrom (p : Position) : List Piece → Position
  | [] => p
  | piece :: pieces => positionFrom ((p.passAll piece.gap).passToken piece.lexeme) pieces

def source (pieces : List Piece) : Text :=
  pieces.flatMap fun piece => piece.gap ++ piece.lexeme

/-- Nothing of a text is lost in a scan. -/
theorem source_run (s : Text) : source (run s).1 ++ (run s).2.text = s := by
  fun_induction run s with
  | case1 s gap atEnd =>
    simpa [source, Ending.text, gap, atEnd] using List.take_append_drop (Token.gapLength s) s
  | case2 s gap c rest split reason =>
    simpa [source, Ending.text, gap, split] using List.take_append_drop (Token.gapLength s) s
  | case3 s gap c rest split kind n read shorter pieces ending ran ih =>
    rw [ran] at ih
    calc source (⟨gap, kind, c :: rest.take (n - 1)⟩ :: pieces) ++ ending.text
        = gap ++ (c :: rest.take (n - 1)) ++ (source pieces ++ ending.text) := by
          simp [source]
      _ = gap ++ (c :: rest) := by simp [ih]
      _ = s := by rw [← split, List.take_append_drop]

end Scan

namespace LexError

/-- What is shown of the line around a place, of which `before` and `after` are the texts. The last
line of a text is shown without its last code point. -/
def excerpt (before after : Text) : Text :=
  let front := (before.reverse.takeWhile fun c : CodePoint => c ≠ '\n').reverse
  let back :=
    if after.contains '\n' then after.takeWhile fun c : CodePoint => c ≠ '\n'
    else after.dropLast
  Text.strip (front ++ back)

def ofStuck (pieces : List Piece) (reason : Token.Stuck) (gap rest : Text) : LexError :=
  let line := ((Scan.positionFrom .start pieces).passAll gap).line
  let shownLine := excerpt (Scan.source pieces ++ gap) rest
  match reason with
  | .unclosed complaint => .at complaint ((gap ++ rest).take 1) line shownLine
  | .at complaint shown => .at complaint [shown] line shownLine
  | .numberCutOff => .numberCutOff
  | .missingExponentAtEnd => .missingExponentAtEnd

end LexError

def Text.decodeEscapes (s : Text) : Except LexError Text :=
  match Text.Escape.decode s with
  | .ok decoded => .ok decoded
  | .error (.malformed digits) =>
    .error (.at .invalidUnicodeEscape digits 1 (LexError.excerpt [] s))
  | .error .negative => .error .negativeEscape

/-- The tokens of a source text, after its escapes have been decoded. -/
def tokenize (s : Text) : Except LexError (List Token) := do
  let decoded ← s.decodeEscapes
  match Scan.run decoded with
  | (pieces, .done _) => return Scan.tokens pieces
  | (pieces, .stuck reason gap rest) => throw (LexError.ofStuck pieces reason gap rest)

end JavaUnits
