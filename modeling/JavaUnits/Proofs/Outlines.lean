import JavaUnits.Proofs.Contents

/-!
What a text is parsed as, as far as its tokens tell. The imports of a unit and the headers of its
types are those of the text's items, wherever these stand, and so the content of a merge has the
imports that are written and the types that the sources leave.
-/

namespace JavaUnits

open CodePoint Token Scan Text CompilationUnit

/-! ## Items without places -/

theorem Header.bare_bare (h : Header) : h.bare.bare = h.bare := by
  rw [bare, bare]
  cases h.visibilityToken <;> simp

namespace Role

def header? : Role → Option Header
  | type h => some h
  | _ => none

def package? : Role → Option Text
  | package name => some name
  | _ => none

def bare : Role → Role
  | type h => type h.bare
  | role => role

theorem ofItem_bare (item : Item) : ofItem (item.map Token.bare) = (ofItem item).bare := by
  cases item with
  | nil => rfl
  | cons first item =>
    have declared := Import.ofItem_bare (first :: item)
    have header := Header.ofItem?_bare (first :: item)
    have name := Item.joinValues_bare ((first :: item).drop 1)
    rw [List.map_drop] at name
    rw [List.map_cons] at declared header name ⊢
    rw [ofItem, ofItem, isKeyword_bare, isKeyword_bare, declared, header, name]
    split
    · rfl
    split
    · rfl
    cases Header.ofItem? (first :: item) <;> rfl

end Role

namespace Item

def header? (item : Item) : Option Header :=
  (Role.ofItem item).header?

def package? (item : Item) : Option Text :=
  (Role.ofItem item).package?

theorem header?_of_import? {item : Item} (imports : item.import?.isSome = true) :
    item.header? = none := by
  rw [import?] at imports
  rw [header?]
  cases role : Role.ofItem item <;> simp_all [Role.import?, Role.header?]

theorem package?_of_import? {item : Item} (imports : item.import?.isSome = true) :
    item.package? = none := by
  rw [import?] at imports
  rw [package?]
  cases role : Role.ofItem item <;> simp_all [Role.import?, Role.package?]

theorem header?_bare (item : Item) :
    header? (item.map Token.bare) = item.header?.map Header.bare := by
  rw [header?, header?, Role.ofItem_bare]
  cases Role.ofItem item <;> rfl

theorem import?_bare (item : Item) : import? (item.map Token.bare) = item.import? := by
  rw [import?, import?, Role.ofItem_bare]
  cases Role.ofItem item <;> rfl

theorem package?_bare (item : Item) : package? (item.map Token.bare) = item.package? := by
  rw [package?, package?, Role.ofItem_bare]
  cases Role.ofItem item <;> rfl

theorem returns_bare (item : Item) : Returns (item.map Token.bare) ↔ item.Returns := by
  have same : (item.map Token.bare).map Token.bare = item.map Token.bare := by
    rw [List.map_map]
    exact List.map_congr_left fun t _ => t.bare_bare
  rw [Returns, Returns, import?_bare, same]

end Item

/-! ## Units read off tokens -/

theorem map_header_typesOf (code : Text) (cuts : List Span) (located : List Located) :
    (typesOf code cuts located).map TypeDecl.header = located.map Located.header := by
  induction located with
  | nil => rfl
  | cons t ts ih => simp [typesOf, ih]

section

variable (code : Text) (items : List (List Piece)) (tail : Text)

theorem headers_ofBlocks :
    (ofBlocks code (blocksOf items tail)).types.map TypeDecl.header
      = (itemsFrom .start items).filterMap Item.header? := by
  have roles (layout : Layout) (start : Nat) (bs : List Block) :
      ((Block.entries layout start bs).filterMap CompilationUnit.Entry.type?).map Located.header
        = (bs.map Block.role).filterMap Role.header? := by
    induction bs generalizing start with
    | nil => rfl
    | cons b bs ih =>
      rw [Block.entries, List.filterMap_cons, List.map_cons, List.filterMap_cons, ← ih, Block.entry]
      cases b.role <;> rfl
  rw [ofBlocks, ofEntries, map_header_typesOf, roles, blocksOf, role_blocksFrom,
    List.filterMap_map]
  rfl

theorem package_ofBlocks :
    (ofBlocks code (blocksOf items tail)).package
      = ((itemsFrom .start items).filterMap Item.package?).getLast? := by
  have roles (layout : Layout) (start : Nat) (bs : List Block) :
      (Block.entries layout start bs).filterMap CompilationUnit.Entry.package?
        = (bs.map Block.role).filterMap Role.package? := by
    induction bs generalizing start with
    | nil => rfl
    | cons b bs ih =>
      rw [Block.entries, List.filterMap_cons, List.map_cons, List.filterMap_cons, ih, Block.entry]
      cases b.role <;> rfl
  rw [ofBlocks, ofEntries, roles, blocksOf, role_blocksFrom, List.filterMap_map]
  rfl

end

theorem Text.unifyBreaks_of_notMem {s : Text} (none : ofChar '\r' ∉ s) : s.unifyBreaks = s := by
  rw [unifyBreaks, mergeBreaks_of_notMem none]
  conv => rhs; rw [← List.map_id s]
  apply List.map_congr_left
  intro c mem
  have other : c ≠ ofChar '\r' := by
    rintro rfl
    exact none mem
  rw [if_neg other, id]

theorem Text.IsPlaced.headers_eq {s : Text} {u : CompilationUnit} (isPlaced : s.IsPlaced)
    (parsed : parse s = .ok u) : u.types.map TypeDecl.header = s.items.filterMap Item.header? := by
  obtain ⟨items, tail, -, -, whole, same⟩ := isPlaced.exists_scanned parsed
  rw [same, ← headers_ofBlocks u.code items tail, ← whole]

/-- Where no token goes over several lines, each is found where it stands. -/
theorem Text.isPlaced_of_solid {s : Text} {u : CompilationUnit}
    (plain : s.unifyBreaks.IsPlain) (parsed : parse s = .ok u)
    (solid : ∀ item ∈ s.items, ∀ t ∈ item, ofChar '\n' ∉ t.value) : s.IsPlaced := by
  refine ⟨plain, placed_run fun p mem => ?_⟩
  obtain ⟨read, ok⟩ := exists_tokenize_of_parse parsed
  obtain ⟨items, tail, scanned, -⟩ := exists_scanned plain ok
  rw [run_eq scanned] at mem
  have token : p.token ∈ (s.items.flatten).map Token.bare := by
    rw [scanned.items_eq rfl, flatten_itemsFrom, bare_tokensFrom]
    exact List.mem_map_of_mem mem
  obtain ⟨t, isToken, bare⟩ := List.mem_map.1 token
  obtain ⟨item, inside, isToken⟩ := List.mem_flatten.1 isToken
  have value : p.lexeme = t.value := (congrArg Token.value bare).symm
  rw [value]
  exact solid item inside t isToken

/-- What a unit is, as far as the items tell from which it is read, wherever these stand. -/
structure CompilationUnit.Outlines (u : CompilationUnit) (items : List Item) : Prop where
  package : u.package = (items.filterMap Item.package?).getLast?
  imports : u.imports = items.filterMap Item.import?
  headers : u.types.map (fun t => t.header.bare) = (items.filterMap Item.header?).map Header.bare

theorem CompilationUnit.outlines_ofBlocks (code : Text) (items : List (List Piece)) (tail : Text) :
    (ofBlocks code (blocksOf items tail)).Outlines (itemsFrom .start items) where
  package := package_ofBlocks code items tail
  imports := imports_ofBlocks code items tail
  headers := by
    rw [← headers_ofBlocks code items tail, List.map_map]
    rfl

theorem CompilationUnit.outlines_bare {u : CompilationUnit} {items : List Item} :
    u.Outlines (items.map (List.map Token.bare)) ↔ u.Outlines items := by
  have package : Item.package? ∘ List.map Token.bare = Item.package? := funext Item.package?_bare
  have imports : Item.import? ∘ List.map Token.bare = Item.import? := funext Item.import?_bare
  have headers : (items.map (List.map Token.bare)).filterMap Item.header?
      = (items.filterMap Item.header?).map Header.bare := by
    rw [List.filterMap_map, List.map_filterMap]
    congr 1
    exact funext Item.header?_bare
  have twice : Header.bare ∘ Header.bare = Header.bare := funext Header.bare_bare
  constructor
  · intro ⟨named, imported, headed⟩
    rw [List.filterMap_map, package] at named
    rw [List.filterMap_map, imports] at imported
    rw [headers, List.map_map, twice] at headed
    exact ⟨named, imported, headed⟩
  · intro ⟨named, imported, headed⟩
    refine ⟨?_, ?_, ?_⟩
    · rw [List.filterMap_map, package, named]
    · rw [List.filterMap_map, imports, imported]
    · rw [headers, List.map_map, twice, headed]

theorem mainClassName_of_single {path : Text} {defined : List Text} {u : CompilationUnit}
    {t : TypeDecl} (single : u.types = [t]) (isPublic : t.isPublic = true) :
    (Extract.ofUnit path defined u).mainClassName
      = if t.header.declaresMain then some t.name else none := by
  rw [Extract.ofUnit, entryPoints, single]
  cases main : t.header.declaresMain <;> simp [TypeDecl.isEntryPoint, main, isPublic]

theorem Text.Reads.exists_parse {s : Text} {ts : List Token} (reads : Reads s ts)
    (noReturn : ofChar '\r' ∉ s) (solid : ∀ t ∈ ts, ofChar '\n' ∉ t.value) :
    Placed s (Scan.run s).1 ∧ s.items.map (List.map Token.bare) = Item.group ts ∧
      ∃ u, parse s = .ok u ∧ u.Outlines s.items := by
  have unified := unifyBreaks_of_notMem noReturn
  obtain ⟨tokens, ok, bare⟩ := tokenize_of_reads reads
  obtain ⟨items, tail, scanned, rfl⟩ := exists_scanned reads.isPlain ok
  have placed : Placed s (Scan.run s).1 := by
    apply placed_run
    rw [run_eq scanned]
    intro p mem
    apply solid p.token
    rw [← bare, Scan.tokens, bare_tokensFrom]
    exact List.mem_map_of_mem mem
  rw [scanned.items_eq unified]
  refine ⟨placed, ?_, _, parse_eq scanned (by rwa [run_eq scanned] at placed) unified,
    outlines_ofBlocks s items tail⟩
  rw [← scanned.grouped, ← bare, Item.group_bare]

/-- A text that is read as complete items is parsed as these. -/
theorem Text.Reads.exists_parse_items {s : Text} {items : List Item}
    (reads : Reads s (items.map (List.map Token.bare)).flatten) (noReturn : ofChar '\r' ∉ s)
    (closed : ∀ item ∈ items, item.IsClosed)
    (solid : ∀ item ∈ items, ∀ t ∈ item, ofChar '\n' ∉ t.value) :
    Placed s (Scan.run s).1 ∧ s.items.map (List.map Token.bare) = items.map (List.map Token.bare) ∧
      ∃ u, parse s = .ok u ∧ u.Outlines items := by
  have grouped := @Item.group_of_flatten (items.map (List.map Token.bare)) (by
    intro _ mem
    obtain ⟨item, inside, rfl⟩ := List.mem_map.1 mem
    exact (Item.isClosed_bare item).2 (closed item inside))
  obtain ⟨placed, same, u, parsed, outlines⟩ := reads.exists_parse noReturn fun t mem => by
    obtain ⟨_, isBare, isToken⟩ := List.mem_flatten.1 mem
    obtain ⟨item, inside, rfl⟩ := List.mem_map.1 isBare
    obtain ⟨t, here, rfl⟩ := List.mem_map.1 isToken
    exact solid item inside t here
  rw [grouped] at same
  rw [← outlines_bare, same, outlines_bare] at outlines
  exact ⟨placed, same, u, parsed, outlines⟩

/-! ## What is left of an item -/

namespace Header

theorem mem_conceal {h : Header} {item : Item} {t : Token} (mem : t ∈ h.conceal item) :
    t ∈ item := by
  induction item with
  | nil => exact mem
  | cons t' ts ih =>
    rw [conceal] at mem
    split at mem
    · exact List.mem_cons_of_mem _ mem
    · rcases List.mem_cons.1 mem with rfl | mem
      · exact List.mem_cons_self
      · exact List.mem_cons_of_mem _ (ih mem)

end Header

theorem Item.mem_left {demoted : Bool} {item : Item} {t : Token} (mem : t ∈ item.left demoted) :
    t ∈ item := by
  rw [left] at mem
  split at mem
  · rw [Header.bodyItem] at mem
    split at mem
    · rw [Header.demote] at mem
      split at mem
      · exact Header.mem_conceal mem
      · exact mem
    · exact mem
  · exact mem
  · cases mem

theorem Item.isClosed_left {item : Item} (closed : item.IsClosed) (read : item.IsRead)
    (detaches : item.Detaches) (other : (Role.ofItem item).isDirective = false) (demoted : Bool) :
    IsClosed (item.left demoted) := by
  rw [left]
  cases role : Role.ofItem item with
  | type h =>
    simp only [Header.bodyItem]
    split
    · obtain ⟨-, -, -, -, -, same⟩ :=
        Header.exists_demote (Role.ofItem_eq_type role) read detaches
      exact same closed
    · exact closed
  | stray => exact closed
  | package => simp [role, Role.isDirective] at other
  | importDecl => simp [role, Role.isDirective] at other

/-- What the items of a source leave, directives left out. -/
def Text.leaves (demoted : Bool) (s : Text) : List Item :=
  (s.items.filter fun item => !(Role.ofItem item).isDirective).map (Item.left demoted)

theorem Text.flatten_leaves (demoted : Bool) (s : Text) :
    (s.leaves demoted).flatten = s.items.flatMap (Item.left demoted) := by
  rw [leaves]
  induction s.items with
  | nil => rfl
  | cons item items ih =>
    rw [List.filter_cons, List.flatMap_cons, ← ih]
    cases role : Role.ofItem item with
    | type => simp [Role.isDirective]
    | stray => simp [Role.isDirective]
    | package => simp [Role.isDirective, Item.left, role]
    | importDecl => simp [Role.isDirective, Item.left, role]

theorem Text.headers_leaves (s : Text) :
    (s.leaves false).filterMap Item.header? = s.items.filterMap Item.header? := by
  rw [leaves, List.filterMap_map]
  induction s.items with
  | nil => rfl
  | cons item items ih =>
    rw [List.filter_cons, List.filterMap_cons, ← ih]
    cases role : Role.ofItem item <;>
      simp [Role.isDirective, Item.header?, Role.header?, Item.left, Header.bodyItem, role]

/-- Whether a source is legible and made of complete items in which no token goes over several
lines. -/
structure Text.IsWhole (s : Text) : Prop where
  legible : s.IsLegible
  solid : ∀ item ∈ s.items, ∀ t ∈ item, ofChar '\n' ∉ t.value
  closed : ∀ item ∈ s.items, item.IsClosed

theorem Text.Reads.isWhole {s : Text} {items : List Item}
    (reads : Reads s (items.map (List.map Token.bare)).flatten) (noReturn : ofChar '\r' ∉ s)
    (closed : ∀ item ∈ items, item.IsClosed)
    (solid : ∀ item ∈ items, ∀ t ∈ item, ofChar '\n' ∉ t.value)
    (returns : ∀ item ∈ items, item.Returns) (detaches : ∀ item ∈ items, item.Detaches) :
    s.IsWhole := by
  have unified := unifyBreaks_of_notMem noReturn
  obtain ⟨placed, same, -⟩ := reads.exists_parse_items noReturn closed solid
  -- The items of the text differ from the given ones in the places of their tokens alone.
  have all {holds : Item → Prop} (bare : ∀ item, holds (item.map Token.bare) ↔ holds item)
      (each : ∀ item ∈ items, holds item) : ∀ item ∈ s.items, holds item := by
    intro item mem
    have mem := List.mem_map_of_mem (f := List.map Token.bare) mem
    rw [same] at mem
    obtain ⟨item', inside, eq⟩ := List.mem_map.1 mem
    rw [← bare, ← eq, bare]
    exact each item' inside
  refine ⟨⟨⟨unified.symm ▸ reads.isPlain, unified.symm ▸ placed⟩, all Item.returns_bare returns,
    all Item.detaches_bare detaches⟩, all (fun item => ?_) solid, all Item.isClosed_bare closed⟩
  simp

theorem Text.IsWhole.isClosed_leaves {s : Text} (whole : s.IsWhole) {u : CompilationUnit}
    (parsed : parse s = .ok u) (demoted : Bool) : ∀ item ∈ s.leaves demoted, item.IsClosed := by
  intro item mem
  obtain ⟨item, inside, rfl⟩ := List.mem_map.1 mem
  obtain ⟨inside, other⟩ := List.mem_filter.1 inside
  exact Item.isClosed_left (whole.closed item inside) (whole.legible.isRead parsed item inside)
    (whole.legible.detaches item inside) (by simpa using other) demoted

/-! ## Contents -/

namespace Merge

variable {sources : Files} {defined : List Text} {es : List Extract} {c : Choice}

theorem Extracted.exists_split (extracted : Extracted sources defined es) (all : c.all = es) :
    ∃ before chosen after, sources = before ++ chosen :: after ∧
      Extracted before defined c.before ∧ Extracted [chosen] defined [c.chosen] ∧
      Extracted after defined c.after := by
  subst all
  obtain ⟨before, chosen, after, split, front, first, later⟩ := exists_split_left extracted
  exact ⟨before, chosen, after, split, front, .cons first .nil, later⟩

theorem mem_of_split {before after : Files} {chosen : Text × Text}
    (split : sources = before ++ chosen :: after) :
    chosen ∈ sources ∧ ∀ file ∈ before ++ after, file ∈ sources := by
  subst split
  exact ⟨by simp, fun file mem =>
    ((List.sublist_cons_self chosen after).append_left before).subset mem⟩

/-- What files leave is read as what the items of their sources leave. -/
theorem Extracted.read_text (extracted : Extracted sources defined es)
    (legible : ∀ file ∈ sources, file.2.IsLegible) (demoted : Bool) :
    (es.flatMap fun e => read (e.text demoted))
      = ((sources.flatMap fun file => file.2.leaves demoted).map
        (List.map Token.bare)).flatten := by
  have each : sources.map (fun file => (file.2.leaves demoted).flatten.map Token.bare)
      = es.map fun e => read (e.text demoted) := by
    apply map_eq_map_of_forall₂ extracted
    rintro file mem _ _ ⟨u, parsed, rfl⟩
    have reads := (legible file mem).reads_text parsed demoted file.1 defined
    rw [reads.read_eq, flatten_leaves, List.map_flatMap]
  rw [List.flatMap_def, ← each, ← List.flatMap_def, ← List.map_flatten]
  simp only [List.flatten_eq_flatMap, List.flatMap_assoc, List.map_flatMap]

/-- Whether the line is how the import is written that the item declares. -/
def Writes (item : Item) (line : Text) : Prop :=
  ∃ i, item.import? = some i ∧ i.text = line

/-- The content of a merge of whole sources is parsed as the imports that are written and as what
the sources leave, those first that are not chosen. -/
theorem Extracted.parse_content (extracted : Extracted sources defined es)
    (whole : ∀ file ∈ sources, file.2.IsWhole) (all : c.all = es) {before after : Files}
    {chosen : Text × Text} (split : sources = before ++ chosen :: after)
    (others : Extracted (before ++ after) defined c.others)
    (main : Extracted [chosen] defined [c.chosen]) :
    ∃ u lines, parse (ofChoice es c).content = .ok u ∧
      List.Forall₂ Writes lines (ofChoice es c).imports ∧
      u.Outlines (lines ++ ((before ++ after).flatMap (fun file : Text × Text =>
        file.2.leaves true) ++ chosen.2.leaves false)) := by
  have legible := fun file mem => (whole file mem).legible
  have reads := extracted.reads_content legible all
  have noReturn := extracted.notMem_content legible all
  obtain ⟨chosenInside, inside⟩ := mem_of_split split
  -- The items that are read from the lines of the imports.
  obtain ⟨lines, written⟩ := @exists_forall₂ Item Text
    (fun item line => Writes item line ∧ item.IsClosed ∧
      (∀ t ∈ item, ofChar '\n' ∉ t.value) ∧ read (line ++ [ofChar '\n']) = item.map Token.bare)
    (ofChoice es c).imports (by
      intro line mem
      obtain ⟨e, here, i, imported, rfl⟩ := mem_imports.1 mem
      obtain ⟨file, isFile, item, isItem, found, -, reads⟩ :=
        extracted.exists_item legible here imported
      exact ⟨item, ⟨i, found, rfl⟩, (whole file isFile).closed item isItem,
        (whole file isFile).solid item isItem, reads.read_eq⟩)
  have linesRead : (ofChoice es c).imports.flatMap (fun line => read (line ++ [ofChar '\n']))
      = (lines.map (List.map Token.bare)).flatten := by
    rw [List.flatMap_def, map_eq_map_of_forall₂ written fun item _ line _ is => is.2.2.2.symm]
  have othersRead := others.read_text (fun file mem => legible file (inside file mem)) true
  have mainRead := main.read_text (by simpa using legible chosen chosenInside) false
  rw [List.flatMap_singleton, List.flatMap_singleton] at mainRead
  rw [linesRead, othersRead, mainRead, List.append_assoc, ← List.flatten_append,
    ← List.flatten_append, ← List.map_append, ← List.map_append] at reads
  have closedFile (file : Text × Text) (mem : file ∈ sources) (demoted : Bool) :
      ∀ item ∈ file.2.leaves demoted, item.IsClosed ∧ ∀ t ∈ item, ofChar '\n' ∉ t.value := by
    obtain ⟨e, -, u, parsed, -⟩ := exists_right_of_mem extracted mem
    intro item isItem
    refine ⟨(whole file mem).isClosed_leaves parsed demoted item isItem, fun t isToken => ?_⟩
    obtain ⟨item, kept, rfl⟩ := List.mem_map.1 isItem
    exact (whole file mem).solid item (List.mem_filter.1 kept).1 t (Item.mem_left isToken)
  have all : ∀ item ∈ lines ++ ((before ++ after).flatMap (fun file : Text × Text =>
      file.2.leaves true) ++ chosen.2.leaves false),
      item.IsClosed ∧ ∀ t ∈ item, ofChar '\n' ∉ t.value := by
    intro item mem
    rw [List.mem_append, List.mem_append, List.mem_flatMap] at mem
    rcases mem with mem | ⟨file, isFile, mem⟩ | mem
    · obtain ⟨line, -, -, closed, solid, -⟩ := exists_right_of_mem written mem
      exact ⟨closed, solid⟩
    · exact closedFile file (inside file isFile) true item mem
    · exact closedFile chosen chosenInside false item mem
  obtain ⟨-, -, u, parsed, outlines⟩ := reads.exists_parse_items noReturn
    (fun item mem => (all item mem).1) fun item mem => (all item mem).2
  exact ⟨u, lines, parsed, written.imp fun _ _ is => is.1, outlines⟩

end Merge

end JavaUnits
