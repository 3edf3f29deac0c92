import JavaUnits.CodePoint.Name
import JavaUnits.Token

/-!
Words: names and the words that the language keeps for itself.
-/

namespace JavaUnits.Token

def modifiers : List Text :=
  ["abstract", "default", "final", "native", "private", "protected", "public", "static",
   "strictfp", "synchronized", "transient", "volatile"].map Text.ofString

def basicTypes : List Text :=
  ["boolean", "byte", "char", "double", "float", "int", "long", "short"].map Text.ofString

def keywords : List Text :=
  ["assert", "break", "case", "catch", "class", "const", "continue", "do", "else", "enum",
   "extends", "finally", "for", "goto", "if", "implements", "import", "instanceof", "interface",
   "new", "package", "return", "super", "switch", "this", "throw", "throws", "try", "void",
   "while"].map Text.ofString

def kindOfWord (word : Text) : Kind :=
  if modifiers.contains word then .modifier
  else if basicTypes.contains word then .basicType
  else if keywords.contains word then .keyword
  else if word == Text.ofString "true" || word == Text.ofString "false" then .boolean
  else if word == Text.ofString "null" then .null
  else .identifier

end JavaUnits.Token
