import JavaUnits.Item

/-!
Headers of type declarations, as far as the tokens tell: name, kind, modifiers and the tokens at
which the visibility is written or may be written.
-/

namespace JavaUnits

inductive TypeKind where
  | classType
  | interfaceType
  | enumType
  deriving DecidableEq, Inhabited

namespace TypeKind

def word : TypeKind → Text
  | classType => "class"
  | interfaceType => "interface"
  | enumType => "enum"

def ofWord (word : Text) : TypeKind :=
  if word == Text.ofString "interface" then interfaceType
  else if word == Text.ofString "enum" then enumType
  else classType

end TypeKind

inductive Visibility where
  | publicAccess
  | protectedAccess
  | privateAccess
  | packageAccess
  deriving DecidableEq, Inhabited

namespace Visibility

/-- The modifier of a visibility; a type without one is visible in its package. -/
def word : Visibility → Text
  | publicAccess => "public"
  | protectedAccess => "protected"
  | privateAccess => "private"
  | packageAccess => "package"

def ofModifier? (word : Text) : Option Visibility :=
  [publicAccess, protectedAccess, privateAccess].find? fun v => v.word == word

end Visibility

structure Header where
  name : Text
  kind : TypeKind
  modifiers : List Text
  declaresMain : Bool
  first : Token
  keyword : Token
  /-- The first visibility modifier. -/
  visibilityToken : Option Token
  /-- The token before which a missing modifier goes. -/
  anchor : Token
  deriving DecidableEq

namespace Header

def visibility (h : Header) : Visibility :=
  (h.visibilityToken.bind fun t => Visibility.ofModifier? t.value).getD .packageAccess

/-- The anchor's word; the keyword of an annotation type has two tokens. -/
def anchorWord (h : Header) : Text :=
  if h.anchor.value == Text.ofString "@" then "@interface" else h.anchor.value

/-- The tokens before the type keyword, that keyword and what follows it. The tokens already passed
are `passed`, the last of them first, with `parens` and `braces` open. A brace outside parentheses
comes after every header. -/
def splitAtKeyword? (passed : List Token) (parens braces : Nat) :
    List Token → Option (List Token × Token × List Token)
  | [] => none
  | t :: ts =>
    if t.opensParen then splitAtKeyword? (t :: passed) (parens + 1) braces ts
    else if t.closesParen then splitAtKeyword? (t :: passed) (parens - 1) braces ts
    else if t.opensBrace then
      if parens = 0 ∧ braces = 0 then none
      else splitAtKeyword? (t :: passed) parens (braces + 1) ts
    else if t.closesBrace then splitAtKeyword? (t :: passed) parens (braces - 1) ts
    else if parens = 0 ∧ braces = 0 ∧ t.opensType passed.head? then some (passed.reverse, t, ts)
    else splitAtKeyword? (t :: passed) parens braces ts

/-- The tokens that stand in no parentheses, of which `parens` are open. -/
def outsideParens (parens : Nat) : List Token → List Token
  | [] => []
  | t :: ts =>
    if t.opensParen then outsideParens (parens + 1) ts
    else if t.closesParen then outsideParens (parens - 1) ts
    else if parens = 0 then t :: outsideParens parens ts
    else outsideParens parens ts

/-- Whether the tokens go on with the name `main` and an opening parenthesis. -/
def namesMain : List Token → Bool
  | name :: paren :: _ =>
    name.isIdentifier && name.value == Text.ofString "main" && paren.opensParen
  | _ => false

/-- Whether a direct member is a public static method without a result whose name is `main`. The
modifiers of the member so far are `seen`. -/
def hasMain (depth : Nat) (seen : List Text) : List Token → Bool
  | [] => false
  | t :: ts =>
    if t.opensBrace then hasMain (depth + 1) [] ts
    else if t.closesBrace then hasMain (depth - 1) [] ts
    else if t.kind = .separator then
      hasMain depth (if t.isSemicolon && depth == 1 then [] else seen) ts
    else if depth ≠ 1 then hasMain depth seen ts
    else if t.isModifier then hasMain depth (t.value :: seen) ts
    else if t.isKeyword "void" && namesMain ts && seen.contains (Text.ofString "public")
        && seen.contains (Text.ofString "static") then true
    else hasMain depth seen ts

/-- The header of an item, unless the item declares no type. -/
def ofItem? (item : Item) : Option Header :=
  match item, splitAtKeyword? [] 0 0 item with
  | first :: _, some (before, keyword, name :: rest) =>
    if name.isIdentifier then
      let modifiers := (outsideParens 0 before).filter Token.isModifier
      let isVisibility (t : Token) := (Visibility.ofModifier? t.value).isSome
      let kindToken :=
        match before.getLast? with
        | some t => if t.kind = .atSign then t else keyword
        | none => keyword
      some {
        name := name.value
        kind := .ofWord keyword.value
        modifiers := modifiers.map Token.value
        declaresMain := hasMain 0 [] (keyword :: name :: rest)
        first := first
        keyword := keyword
        visibilityToken := modifiers.find? isVisibility
        anchor := (modifiers.find? fun t => !isVisibility t).getD kindToken }
    else none
  | _, _ => none

end Header

end JavaUnits
