import JavaUnits.Files
import JavaUnits.Unit

/-!
Splitting a source text into one file per top-level type. Each file holds the imports, in their
order, and the type with its header made public. What stands before the first type is dropped. Of
types with one name the last is kept, in the place of the first.
-/

namespace JavaUnits

structure SplitFiles where
  files : Files
  typeNames : List Text
  deriving DecidableEq

def sourceExtension : Text :=
  ".java"

namespace SplitFiles

def fileName (t : TypeDecl) : Text :=
  t.name ++ sourceExtension

def fileText (u : CompilationUnit) (t : TypeDecl) : Text :=
  let body := u.publicBody t
  let lines := if u.imports.isEmpty then body else u.imports.map Import.text ++ [] :: body
  Text.ofLines lines ++ Text.ofString "\n"

def ofUnit (u : CompilationUnit) : SplitFiles :=
  { files := .ofPairs (u.types.map fun t => (fileName t, fileText u t))
    typeNames := (u.types.map TypeDecl.name).eraseDups }

end SplitFiles

def split (source : Text) : Except UnitError SplitFiles := do
  return .ofUnit (← CompilationUnit.parse source)

end JavaUnits
