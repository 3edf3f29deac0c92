import JavaUnits.Token

/-!
Items: the declarations of a source text at brace depth zero. An item ends at a semicolon of depth
zero, or at the brace that returns to depth zero after a type keyword of depth zero. Braces before
the type keyword, such as those of an annotation's array values, end no item.
-/

namespace JavaUnits

abbrev Item := List Token

namespace Token

def typeKeywords : List Text :=
  ["class", "interface", "enum"].map Text.ofString

/-- Whether `t` is a type keyword. After a dot, `class` is a literal and opens no type. -/
def opensType (previous : Option Token) (t : Token) : Bool :=
  t.kind.isKeyword && typeKeywords.contains t.value
    && !(previous.map fun p => p.isSeparator ".").getD false

end Token

namespace Item

/-- What is known in the midst of an item: the tokens so far, the last of them first, the brace
depth, and whether a type keyword stood at depth zero. -/
structure Progress where
  tokens : List Token := []
  depth : Nat := 0
  isType : Bool := false

/-- Takes one more token and tells whether it ends the item. -/
def Progress.take (p : Progress) (t : Token) : Progress × Bool :=
  let isType := p.isType || (p.depth == 0 && t.opensType p.tokens.head?)
  let tokens := t :: p.tokens
  if t.opensBrace then (⟨tokens, p.depth + 1, isType⟩, false)
  else if t.closesBrace then
    (⟨tokens, p.depth - 1, isType⟩, p.depth - 1 == 0 && isType)
  else (⟨tokens, p.depth, isType⟩, t.isSemicolon && p.depth == 0)

def groupFrom (p : Progress) : List Token → List Item
  | [] => if p.tokens.isEmpty then [] else [p.tokens.reverse]
  | t :: ts =>
    match p.take t with
    | (q, true) => q.tokens.reverse :: groupFrom {} ts
    | (q, false) => groupFrom q ts

def group (ts : List Token) : List Item :=
  groupFrom {} ts

/-- The values of the tokens without a break, semicolons left out. -/
def joinValues (ts : List Token) : Text :=
  (ts.filter fun t => t.value != Text.ofString ";").flatMap Token.value

end Item

end JavaUnits
