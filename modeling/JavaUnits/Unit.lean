import JavaUnits.Header
import JavaUnits.Import
import JavaUnits.Layout
import JavaUnits.Span
import JavaUnits.Token.Lexer

/-!
Compilation units: the structural view of a source text. Its items are directives, which name the
package or import something, type declarations and strays. Each type owns the text from its first
token up to the next type; directives are cut out of whatever owns them.
-/

namespace JavaUnits

inductive UnitError where
  | lexical (e : LexError)
  /-- A token is reported on a line past the last one. -/
  | lineMissing
  /-- A place in the text is looked at past its end. -/
  | offsetPastEnd
  deriving DecidableEq

def UnitError.message : UnitError → Text
  | lexical e => e.message
  | lineMissing => "list index out of range"
  | offsetPastEnd => "string index out of range"

structure TypeDecl where
  header : Header
  span : Span
  visibilityOffset : Option Nat
  anchorOffset : Nat
  bodyLines : List Text
  deriving DecidableEq

namespace TypeDecl

def name (t : TypeDecl) : Text :=
  t.header.name

def isPublic (t : TypeDecl) : Bool :=
  t.header.visibility = .publicAccess

def isAbstract (t : TypeDecl) : Bool :=
  t.header.modifiers.contains (Text.ofString "abstract")

def isFinal (t : TypeDecl) : Bool :=
  t.header.modifiers.contains (Text.ofString "final")

def isEntryPoint (t : TypeDecl) : Bool :=
  t.header.declaresMain && t.isPublic

end TypeDecl

structure CompilationUnit where
  code : Text
  package : Option Text
  imports : List Import
  types : List TypeDecl
  directives : List Span
  /-- What stands before the first type, directives and blank edges left out. -/
  leadLines : List Text
  deriving DecidableEq

namespace CompilationUnit

/-- A header with the places of its tokens and the place where its type's text begins. -/
structure Located where
  header : Header
  start : Nat
  visibilityOffset : Option Nat
  anchorOffset : Nat

/-- What an item of the text is. -/
inductive Entry where
  | package (name : Text) (cut : Span)
  | importDecl (i : Import) (cut : Span)
  | type (t : Located)
  | stray

namespace Entry

def cut? : Entry → Option Span
  | package _ cut | importDecl _ cut => some cut
  | _ => none

def package? : Entry → Option Text
  | package name _ => some name
  | _ => none

def import? : Entry → Option Import
  | importDecl i _ => some i
  | _ => none

def type? : Entry → Option Located
  | type t => some t
  | _ => none

end Entry

def blanksLength (s : Text) : Nat :=
  (s.takeWhile CodePoint.isSpaceOrTab).length

/-- Where the text of a type begins whose first token is at `first`: at the start of its line, or
after the blanks that follow the item before it when that one ends on the same line. -/
def typeStart (code : Text) (first previousEnd : Nat) : Except UnitError Nat :=
  let lineStart := code.lineStart first
  if previousEnd ≤ lineStart then .ok lineStart
  else
    let start := previousEnd + blanksLength (code.slice previousEnd first)
    if start < first ∧ code.length ≤ start then .error .offsetPastEnd else .ok start

/-- What is cut out for a directive from `start` to `stop`. One that is alone on its line, or
follows the `last` cut there, takes the blanks around it and the line's end; another takes the
blanks after it alone. -/
def directiveSpan (code : Text) (last : Option Span) (start stop : Nat) : Except UnitError Span :=
  let lineStart := code.lineStart start
  let adjoins := (last.map fun cut => cut.stop == start).getD false
  let ownsLine := Text.isBlank (code.slice lineStart start)
    || (last.map fun cut => cut.start ≤ lineStart && cut.stop == start).getD false
  let stop := stop + blanksLength (code.drop stop)
  if ownsLine then
    let start := if adjoins then start else lineStart
    match code.drop stop with
    | [] => if stop = code.length then .ok ⟨start, stop⟩ else .error .offsetPastEnd
    | c :: _ => .ok ⟨start, if c = '\n' then stop + 1 else stop⟩
  else .ok ⟨start, stop⟩

def offset (layout : Layout) (t : Token) : Except UnitError Nat :=
  match layout.offset? t with
  | some n => .ok n
  | none => .error .lineMissing

def locate (code : Text) (layout : Layout) (previousEnd : Nat) (h : Header) :
    Except UnitError Located := do
  let visibilityOffset ← h.visibilityToken.mapM (offset layout)
  let anchorOffset ← offset layout h.anchor
  let start ← typeStart code (← offset layout h.first) previousEnd
  return ⟨h, start, visibilityOffset, anchorOffset⟩

/-- What the item is that begins with `first`, when the item before it ends at `previousEnd`. -/
def classify (code : Text) (layout : Layout) (previousEnd stop : Nat) (last : Option Span)
    (first : Token) (item : Item) : Except UnitError Entry := do
  if first.isKeyword "package" then
    let cut ← directiveSpan code last (← offset layout first) stop
    return .package (Item.joinValues (item.drop 1)) cut
  else if first.isKeyword "import" then
    let cut ← directiveSpan code last (← offset layout first) stop
    return .importDecl (.ofItem item) cut
  else
    match Header.ofItem? item with
    | some h => return .type (← locate code layout previousEnd h)
    | none => return .stray

/-- The entries of the items, the first of which follows an item that ends at `previousEnd` and a
directive that was cut out as `last`. -/
def entriesFrom (code : Text) (layout : Layout) (previousEnd : Nat) (last : Option Span) :
    List Item → Except UnitError (List Entry)
  | [] => return []
  | item :: items => do
    match item.head?, item.getLast? with
    | some first, some final =>
      let stop := (← offset layout final) + final.value.length
      let entry ← classify code layout previousEnd stop last first item
      return entry :: (← entriesFrom code layout stop (entry.cut?.or last) items)
    | _, _ => entriesFrom code layout previousEnd last items

/-- The types with their spans; `code` is the whole text. -/
def typesOf (code : Text) (cuts : List Span) : List Located → List TypeDecl
  | [] => []
  | t :: ts =>
    let span : Span := ⟨t.start, (ts.head?.map Located.start).getD code.length⟩
    { header := t.header
      span := span
      visibilityOffset := t.visibilityOffset
      anchorOffset := t.anchorOffset
      bodyLines := (Text.stripRight (span.render code cuts [])).lines } :: typesOf code cuts ts

def ofEntries (code : Text) (entries : List Entry) : CompilationUnit :=
  let cuts := entries.filterMap Entry.cut?
  let located := entries.filterMap Entry.type?
  let leadStop := (located.head?.map Located.start).getD code.length
  { code := code
    package := (entries.filterMap Entry.package?).getLast?
    imports := entries.filterMap Entry.import?
    types := typesOf code cuts located
    directives := cuts
    leadLines := Text.trimBlankLines (Text.lines (Span.render code ⟨0, leadStop⟩ cuts [])) }

/-- The unit of a source text, whose line breaks are made line feeds first. -/
def parse (source : Text) : Except UnitError CompilationUnit := do
  let code := source.unifyBreaks
  match tokenize code with
  | .error e => throw (.lexical e)
  | .ok tokens =>
    let entries ← entriesFrom code (.ofText code) 0 none (Item.group tokens)
    return ofEntries code entries

def publicTypes (u : CompilationUnit) : List TypeDecl :=
  u.types.filter TypeDecl.isPublic

def entryPoints (u : CompilationUnit) : List TypeDecl :=
  u.types.filter TypeDecl.isEntryPoint

/-- The text of a span without directives. -/
def text (u : CompilationUnit) (span : Span) (edits : List Edit) : Text :=
  span.render u.code u.directives edits

/-- The whole text without directives and blank edges. -/
def bodyLines (u : CompilationUnit) (edits : List Edit) : List Text :=
  Text.trimBlankLines (Text.lines (u.text ⟨0, u.code.length⟩ edits))

/-- The edit that makes a type public, unless it is. -/
def publicEdit? (t : TypeDecl) : Option Edit :=
  if t.isPublic then none
  else
    match t.visibilityOffset with
    | some offset => some ⟨offset, t.header.visibility.word.length, "public"⟩
    | none => some ⟨t.anchorOffset, 0, "public "⟩

/-- The edit that takes `public` and the blanks after it from a type's header, if it is there. -/
def stripPublicEdit? (code : Text) (t : TypeDecl) : Option Edit :=
  if t.isPublic then
    t.visibilityOffset.map fun offset =>
      let length := Visibility.publicAccess.word.length
      ⟨offset, length + blanksLength (code.drop (offset + length)), []⟩
  else none

/-- The text of a type with its header made public. -/
def publicBody (u : CompilationUnit) (t : TypeDecl) : List Text :=
  (Text.stripRight (u.text t.span (publicEdit? t).toList)).lines

/-- The whole body with every type visible in its package, save those that are private or
protected. -/
def demotedBody (u : CompilationUnit) : List Text :=
  u.bodyLines (u.types.filterMap (stripPublicEdit? u.code))

end CompilationUnit

/-- The names of all types that a source text declares, nested and local ones included. -/
def declaredNames (source : Text) : Except LexError (List Text) := do
  let tokens ← tokenize source.mergeBreaks
  return collect none tokens
where
  collect (previous : Option Token) : List Token → List Text
    | t :: name :: ts =>
      let names := collect (some t) (name :: ts)
      if t.opensType previous && name.isIdentifier then name.value :: names else names
    | _ => []

end JavaUnits
