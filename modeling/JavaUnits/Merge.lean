import JavaUnits.Files
import JavaUnits.Policy
import JavaUnits.Refusal
import JavaUnits.Text.Quoted
import JavaUnits.Unit

/-!
Merging source files into one. One type stays public, the one that declares main; its file's body
comes last. Imports of types that the files define themselves are dropped, the others sorted and
written once.
-/

namespace JavaUnits

inductive MergeError where
  | invalidPolicy (name : Text)
  | noSources
  | source (e : UnitError)
  | noEntryPoint
  /-- The entry points with the paths of their files. -/
  | multipleEntryPoints (candidates : List (Text × Text))
  deriving DecidableEq

namespace UnitError

def refusal? : UnitError → Option Refusal
  | lexical e => some { kind := .sourceLexError, message := e.message }
  | _ => none

end UnitError

namespace MergeError

def message : MergeError → Text
  | invalidPolicy name =>
    Text.ofString "Unknown entry point policy " ++ name.quoted ++ "; expected one of "
      ++ Policy.choices
  | noSources => "No source files to merge."
  | source e => e.message
  | noEntryPoint => "No class with main method found."
  | multipleEntryPoints candidates =>
    Text.ofString "More than one class with a main method: "
      ++ Text.join ", " (candidates.map fun (name, path) => name ++ " (" ++ path ++ ")")

def refusal? (e : MergeError) : Option Refusal :=
  match e with
  | invalidPolicy _ => some { kind := .invalidPolicy, message := e.message }
  | noSources => some { kind := .noSourceFiles, message := e.message }
  | source e => e.refusal?
  | noEntryPoint => some { kind := .noEntryPoint, message := e.message }
  | multipleEntryPoints candidates =>
    some {
      kind := .multipleEntryPoints
      message := e.message
      candidates := some (candidates.map Prod.snd) }

end MergeError

/-- What a merge takes from one file. -/
structure Extract where
  path : Text
  imports : List Import
  typeNames : List Text
  mainClassName : Option Text
  /-- The text without directives. -/
  body : List Text
  /-- The same with `public` taken from the header of every top-level type. -/
  demotedBody : List Text
  deriving DecidableEq

namespace Extract

def ofUnit (path : Text) (defined : List Text) (u : CompilationUnit) : Extract :=
  { path := path
    imports := u.imports.filter fun i => !i.isSelf defined
    typeNames := u.types.map TypeDecl.name
    mainClassName := u.entryPoints.head?.map TypeDecl.name
    body := u.bodyLines []
    demotedBody := u.demotedBody }

def ofSource (defined : List Text) (path source : Text) : Except UnitError Extract := do
  return .ofUnit path defined (← CompilationUnit.parse source)

def isCandidate (e : Extract) : Bool :=
  e.mainClassName.isSome

/-- The entry point with the path of its file. -/
def candidate? (e : Extract) : Option (Text × Text) :=
  e.mainClassName.map fun name => (name, e.path)

end Extract

structure Merged where
  content : Text
  mainClassName : Text
  imports : List Text
  otherClassNames : List Text
  demotedEntryPoints : List Text
  sourceFiles : List Text
  deriving DecidableEq

namespace Merge

/-- The type names of all files, nested and local ones included. -/
def definedNames (sources : Files) : Except UnitError (List Text) := do
  let names ← sources.mapM fun (_, source) =>
    match declaredNames source with
    | .ok names => Except.ok names
    | .error e => .error (.lexical e)
  return names.flatten

def policy (asked : Option Text) (configured : Text) : Except MergeError Policy :=
  let name := Policy.effective asked configured
  match Policy.ofName? name with
  | some p => .ok p
  | none => .error (.invalidPolicy name)

/-- A file singled out among others, which keep their order. -/
structure Choice where
  before : List Extract
  chosen : Extract
  after : List Extract

namespace Choice

def others (c : Choice) : List Extract :=
  c.before ++ c.after

def first? : List Extract → Option Choice
  | [] => none
  | e :: es =>
    if e.isCandidate then some ⟨[], e, es⟩
    else (first? es).map fun c => { c with before := e :: c.before }

def last? (es : List Extract) : Option Choice :=
  (first? es.reverse).map fun c => ⟨c.after.reverse, c.chosen, c.before.reverse⟩

def make (p : Policy) (extracts : List Extract) : Except MergeError Choice :=
  let candidates := extracts.filterMap Extract.candidate?
  if p = .fail ∧ 1 < candidates.length then .error (.multipleEntryPoints candidates)
  else
    match if p = .first then first? extracts else last? extracts with
    | some c => .ok c
    | none => .error .noEntryPoint

end Choice

def assemble (imports : List Text) (others : List (List Text)) (main : List Text) : Text :=
  let importPart := if imports.isEmpty then [] else [Text.ofLines imports]
  Text.join "\n\n" (importPart ++ others.map Text.ofLines ++ [Text.ofLines main])
    ++ Text.ofString "\n"

def ofChoice (extracts : List Extract) (c : Choice) : Merged :=
  let imports := Text.sort (extracts.flatMap fun e => e.imports.map Import.text).eraseDups
  let others := c.others.filter fun e => !e.demotedBody.isEmpty
  { content := assemble imports (others.map Extract.demotedBody) c.chosen.body
    mainClassName := c.chosen.mainClassName.getD []
    imports := imports
    otherClassNames := others.flatMap Extract.typeNames
    demotedEntryPoints := c.others.filterMap Extract.mainClassName
    sourceFiles := extracts.map Extract.path }

end Merge

/-- Merges the sources, in their order, under the policy asked for or else the configured one. -/
def merge (sources : Files) (asked : Option Text) (configured : Text) :
    Except MergeError Merged := do
  let policy ← Merge.policy asked configured
  if sources.isEmpty then throw .noSources
  let extracts ← (do
    let defined ← Merge.definedNames sources
    sources.mapM fun (path, source) => Extract.ofSource defined path source).mapError
      MergeError.source
  let choice ← Merge.Choice.make policy extracts
  return Merge.ofChoice extracts choice

end JavaUnits
