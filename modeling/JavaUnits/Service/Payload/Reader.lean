import JavaUnits.CodePoint.Digit
import JavaUnits.Service.Payload
import JavaUnits.Text.Units

/-!
Reading payloads from JSON text. Reading stops at the first place where the text cannot go on.
Beside the standard's numbers the names of the infinite ones and of the one that is no number are
read.
-/

namespace JavaUnits.Payload

inductive Failure where
  /-- The text cannot go on where `rest` stands. -/
  | at (rest : Text)
  | numberTooLong
  | nestedTooDeep
  deriving DecidableEq

def isSpace (c : CodePoint) : Bool :=
  c = ' ' || c = '\t' || c = '\n' || c = '\r'

def skipSpace (s : Text) : Text :=
  s.dropWhile isSpace

/-- What the letter after a backslash stands for. -/
def plainEscape? (c : CodePoint) : Option CodePoint :=
  if c = '"' ∨ c = '\\' ∨ c = '/' then some c
  else if c = 'b' then some '\x08'
  else if c = 'f' then some '\x0c'
  else if c = 'n' then some '\n'
  else if c = 'r' then some '\r'
  else if c = 't' then some '\t'
  else none

/-- The number of four hexadecimal digits, which more must follow. -/
def fourDigits? (s : Text) : Option Nat :=
  let digits := s.take 4
  if digits.length = 4 ∧ digits.all CodePoint.isPlainHexDigit ∧ !(s.drop 4).isEmpty then
    some (digits.foldl (fun n c => 16 * n + (c.hexValue?.getD 0)) 0)
  else none

/-- The low surrogate that an escape at the start of `s` gives. The escape is malformed when no
digits follow its marker. -/
def lowSurrogate? (s : Text) : Except Failure (Option Nat) :=
  match s with
  | a :: b :: rest =>
    if a = '\\' ∧ b = 'u' ∧ !(rest.drop 4).isEmpty then
      match fourDigits? rest with
      | none => .error (.at (b :: rest))
      | some n => .ok (if 0xDC00 ≤ n ∧ n ≤ 0xDFFF then some n else none)
    else .ok none
  | _ => .ok none

/-- The code point of the escape whose digits begin `s`, and how long it is. A high and a low
surrogate are one code point. The escape's letter is `marker`. -/
def unicodeEscape (marker : CodePoint) (s : Text) : Except Failure (CodePoint × Nat) :=
  match fourDigits? s with
  | none => .error (.at (marker :: s))
  | some n =>
    if 0xD800 ≤ n ∧ n ≤ 0xDBFF then do
      match ← lowSurrogate? (s.drop 4) with
      | some low =>
        let joined := 0x10000 + (n - 0xD800) * 0x400 + (low - 0xDC00)
        return ((CodePoint.ofNat? joined).getD marker, 10)
      | none => return ((CodePoint.ofNat? n).getD marker, 4)
    else .ok ((CodePoint.ofNat? n).getD marker, 4)

/-- The content of a string and what follows it; `opening` is the text from its first quote on, and
`done` what is read, the last first. -/
def readString (opening done s : Text) : Except Failure (Text × Text) :=
  match s with
  | [] => .error (.at opening)
  | c :: rest =>
    if c = '"' then .ok (done.reverse, rest)
    else if c.val < 0x20 then .error (.at (c :: rest))
    else if c = '\\' then
      match rest with
      | [] => .error (.at opening)
      | e :: rest' =>
        if e = 'u' then
          match unicodeEscape e rest' with
          | .error failure => .error failure
          | .ok (d, n) => readString opening (d :: done) (rest'.drop n)
        else
          match plainEscape? e with
          | none => .error (.at (c :: rest))
          | some d => readString opening (d :: done) rest'
    else readString opening (c :: done) rest
termination_by s.length
decreasing_by all_goals simp_wf <;> omega

def digitsOf (s : Text) : Text :=
  s.takeWhile CodePoint.isPlainDigit

def valueOf (digits : Text) : Nat :=
  digits.foldl (fun n c => 10 * n + (c.val - 0x30)) 0

/-- The number of digits that a whole number may have. -/
def digitLimit : Nat := 4300

/-- The digits that begin `s`; a zero in front stands alone. -/
def wholePart (s : Text) : Text :=
  let digits := digitsOf s
  if digits.head? = some (CodePoint.ofChar '0') then digits.take 1 else digits

/-- The fraction that begins `s`: a dot and digits. -/
def fractionOf (s : Text) : Text :=
  match s with
  | c :: rest => if c = '.' then digitsOf rest else []
  | [] => []

/-- The exponent that begins `s`, with the length of its text. -/
def exponentOf (s : Text) : Option (Int × Nat) :=
  match s with
  | c :: rest =>
    if c = 'e' ∨ c = 'E' then
      let sign := (rest.take 1).filter fun d : CodePoint => d = '-' || d = '+'
      let digits := digitsOf (rest.drop sign.length)
      if digits.isEmpty then none
      else
        let n : Int := valueOf digits
        some (if sign = ['-'].map CodePoint.ofChar then -n else n, 1 + sign.length + digits.length)
    else none
  | [] => none

/-- A number and what follows it. -/
def readNumber (s : Text) : Except Failure (Payload × Text) :=
  let minus := (s.take 1).filter fun c : CodePoint => c = '-'
  let unsigned := s.drop minus.length
  let whole := wholePart unsigned
  if whole.isEmpty then .error (.at s)
  else
    let afterWhole := unsigned.drop whole.length
    let fraction := fractionOf afterWhole
    let fractionLength := if fraction.isEmpty then 0 else 1 + fraction.length
    let afterFraction := afterWhole.drop fractionLength
    let decimal (exponent : Int) : Payload :=
      .decimal ⟨!minus.isEmpty, valueOf (whole ++ fraction), exponent - fraction.length⟩
    match exponentOf afterFraction with
    | none =>
      if !fraction.isEmpty then .ok (decimal 0, afterFraction)
      else if digitLimit < whole.length then .error .numberTooLong
      else if minus.isEmpty then .ok (.int (valueOf whole), afterFraction)
      else .ok (.int (-(valueOf whole : Int)), afterFraction)
    | some (exponent, n) => .ok (decimal exponent, afterFraction.drop n)

def names : List (Text × Payload) :=
  [("null", .null), ("true", .bool true), ("false", .bool false), ("NaN", .nonfinite),
   ("Infinity", .nonfinite), ("-Infinity", .nonfinite)]

/-- How deep lists and records may stand in each other. -/
def nestingLimit : Nat := 957

mutual

/-- A value and what follows it; `levels` more lists and records may begin in one another. -/
def readValue : Nat → Nat → Text → Except Failure (Payload × Text)
  | 0, _, s => .error (.at s)
  | _, _, [] => .error (.at [])
  | fuel + 1, levels, c :: rest =>
    if c = '"' then do
      let (content, after) ← readString (c :: rest) [] rest
      return (.text content, after)
    else if (c = '[' ∨ c = '\x7b') ∧ levels = 0 then .error .nestedTooDeep
    else if c = '[' then
      match skipSpace rest with
      | [] => .error (.at [])
      | d :: after =>
        if d = ']' then .ok (.list [], after) else readItems fuel (levels - 1) [] (d :: after)
    else if c = '\x7b' then
      match skipSpace rest with
      | [] => .error (.at [])
      | d :: after =>
        if d = '\x7d' then .ok (.record [], after)
        else readMembers fuel (levels - 1) [] (d :: after)
    else
      match names.find? fun (name, _) => Text.startsWith (c :: rest) name with
      | some (name, value) => .ok (value, (c :: rest).drop name.length)
      | none => readNumber (c :: rest)

/-- The items of a list from the next one on, and what follows the list. -/
def readItems : Nat → Nat → List Payload → Text → Except Failure (Payload × Text)
  | 0, _, _, s => .error (.at s)
  | fuel + 1, levels, done, s => do
    let (item, after) ← readValue fuel levels s
    match skipSpace after with
    | [] => throw (.at [])
    | c :: rest =>
      if c = ']' then return (.list (item :: done).reverse, rest)
      else if c = ',' then readItems fuel levels (item :: done) (skipSpace rest)
      else throw (.at (c :: rest))

/-- The members of a record from the next one on, and what follows the record. -/
def readMembers : Nat → Nat → List (Text × Payload) → Text → Except Failure (Payload × Text)
  | 0, _, _, s => .error (.at s)
  | _, _, _, [] => .error (.at [])
  | fuel + 1, levels, done, quote :: s => do
    if quote ≠ '"' then throw (.at (quote :: s))
    let (name, after) ← readString (quote :: s) [] s
    match skipSpace after with
    | [] => throw (.at [])
    | colon :: s =>
      if colon ≠ ':' then throw (.at (colon :: s))
      let (value, after) ← readValue fuel levels (skipSpace s)
      let done := putMember name value done
      match skipSpace after with
      | [] => throw (.at [])
      | c :: rest =>
        if c = '\x7d' then return (.record done, rest)
        else if c = ',' then readMembers fuel levels done (skipSpace rest)
        else throw (.at (c :: rest))

end

inductive ReadError where
  | cannotGoOn (position : Nat)
  | numberTooLong
  | nestedTooDeep
  /-- The bytes encode no text. -/
  | undecodable
  deriving DecidableEq

/-- The value of a text. A byte order mark in front is no part of the text. -/
def read (s : Text) : Except ReadError Payload :=
  let s := if s.head?.map CodePoint.val = some 0xFEFF then s.drop 1 else s
  let found : Except Failure Payload := do
    let (value, after) ← readValue (2 * s.length + 2) nestingLimit (skipSpace s)
    match skipSpace after with
    | [] => return value
    | rest => throw (.at rest)
  match found with
  | .ok value => .ok value
  | .error (.at rest) => .error (.cannotGoOn (s.length - rest.length))
  | .error .numberTooLong => .error .numberTooLong
  | .error .nestedTooDeep => .error .nestedTooDeep

/-- The value of a text, given by its bytes in UTF-8 or in wider units. -/
def readBytes (content : Bytes) : Except ReadError Payload :=
  let decoded :=
    match Text.Units.detect? content with
    | some units => units.decode? content
    | none => (Text.Utf8.decode content).toOption
  match decoded with
  | some s => read s
  | none => .error .undecodable

end JavaUnits.Payload
