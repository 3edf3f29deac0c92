import JavaUnits.Text

/-!
Tokens of a Java source text. A kind tells how a token was read; a modifier and a basic type are
keywords as well.
-/

namespace JavaUnits

inductive Kind where
  | keyword
  | modifier
  | basicType
  | boolean
  | null
  | identifier
  | atSign
  | separator
  | operator
  | string
  | decimalInteger
  | octalInteger
  | binaryInteger
  | hexInteger
  | decimalFloat
  | hexFloat
  deriving DecidableEq, Inhabited

def Kind.isKeyword : Kind → Bool
  | keyword | modifier | basicType => true
  | _ => false

/-- Lines and columns count from one. -/
structure Position where
  line : Nat
  column : Nat
  deriving DecidableEq, Inhabited

namespace Position

def start : Position := ⟨1, 1⟩

/-- The position after one code point between tokens. -/
def pass (p : Position) (c : CodePoint) : Position :=
  if c = '\n' then ⟨p.line + 1, 1⟩ else ⟨p.line, p.column + 1⟩

/-- The position after blanks and comments. -/
def passAll (p : Position) (s : Text) : Position :=
  s.foldl pass p

/-- The position after a token. A line break inside a token is not counted. -/
def passToken (p : Position) (s : Text) : Position :=
  ⟨p.line, p.column + s.length⟩

end Position

structure Token where
  kind : Kind
  value : Text
  position : Position
  deriving DecidableEq, Inhabited

namespace Token

def isSeparator (t : Token) (value : Text) : Bool :=
  t.kind = .separator && t.value == value

def opensBrace (t : Token) : Bool :=
  t.isSeparator "\x7b"

def closesBrace (t : Token) : Bool :=
  t.isSeparator "\x7d"

def opensParen (t : Token) : Bool :=
  t.isSeparator "("

def closesParen (t : Token) : Bool :=
  t.isSeparator ")"

def isSemicolon (t : Token) : Bool :=
  t.isSeparator ";"

def isKeyword (t : Token) (value : Text) : Bool :=
  t.kind.isKeyword && t.value == value

def isModifier (t : Token) : Bool :=
  t.kind = .modifier

def isIdentifier (t : Token) : Bool :=
  t.kind = .identifier

theorem isSeparator_iff {t : Token} {value : Text} :
    t.isSeparator value = true ↔ t.kind = .separator ∧ t.value = value := by
  simp [isSeparator]

theorem isKeyword_iff {t : Token} {value : Text} :
    t.isKeyword value = true ↔ t.kind.isKeyword = true ∧ t.value = value := by
  simp [isKeyword]

theorem isIdentifier_iff {t : Token} : t.isIdentifier = true ↔ t.kind = .identifier := by
  simp [isIdentifier]

end Token

end JavaUnits
