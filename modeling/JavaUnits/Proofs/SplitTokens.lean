import JavaUnits.Proofs.Edits
import JavaUnits.Proofs.Lines
import JavaUnits.Split
import Mathlib.Data.List.Nodup

/-!
The tokens of the files that a text is split into. The file of a type has the tokens of the imports,
those of the type's own declaration with its visibility set to `public`, and those of the strays
between it and the next type, each in the order of the text.
-/

namespace JavaUnits

open CodePoint Token Scan Text CompilationUnit

/-- A type's declaration with the strays that stand between it and the next type. -/
structure Declared where
  header : Header
  item : Item
  strays : List Item

namespace Declared

/-- The strays before the first type. -/
def straysOf : List Item → List Item
  | [] => []
  | item :: items =>
    match Role.ofItem item with
    | .type _ => []
    | .stray => item :: straysOf items
    | _ => straysOf items

def ofItems : List Item → List Declared
  | [] => []
  | item :: items =>
    match Role.ofItem item with
    | .type h => ⟨h, item, straysOf items⟩ :: ofItems items
    | _ => ofItems items

/-- The declaration with its visibility set to `public`, and the strays. -/
def published (d : Declared) : List Token :=
  d.header.publish d.item ++ d.strays.flatten

end Declared

/-- The name of each file with the tokens that the text of the file has. -/
def Files.tokenized (files : Files) : List (Text × Except LexError (List Token)) :=
  files.map fun file => (file.1, (tokenize file.2).map (List.map Token.bare))

def Item.import? (item : Item) : Option Import :=
  (Role.ofItem item).import?

/-- Whether the import that an item declares, if any, is written with the tokens of the item. -/
def Item.Returns (item : Item) : Prop :=
  ∀ i ∈ item.import?,
    (tokenize i.text).toOption.map (List.map Token.bare) = some (item.map Token.bare)

instance (item : Item) : Decidable item.Returns :=
  inferInstanceAs (Decidable (∀ i ∈ item.import?, _))

/-- The files that items make: the tokens of the imports, and then those of a declaration. -/
def Declared.files (items : List Item) : List (Text × Except LexError (List Token)) :=
  let imports := items.filter fun item => item.import?.isSome
  (ofItems items).map fun d =>
    (d.header.name ++ sourceExtension, .ok ((imports.flatten ++ d.published).map Token.bare))

/-! ## Items and blocks -/

section

variable (pre : Preceding) (p : Position) (tail : Text) (items : List (List Piece))

theorem item_blocksFrom : (blocksFrom pre p tail items).map Block.item = itemsFrom p items := by
  induction items generalizing pre p with
  | nil => rfl
  | cons ps items ih => simp [blocksFrom, itemsFrom, ih, Preceding.block]

theorem role_blocksFrom :
    (blocksFrom pre p tail items).map Block.role = (itemsFrom p items).map Role.ofItem := by
  induction items generalizing pre p with
  | nil => rfl
  | cons ps items ih => simp [blocksFrom, itemsFrom, ih, Preceding.block]

theorem strays_blocksFrom :
    Block.strays (blocksFrom pre p tail items) = Declared.straysOf (itemsFrom p items) := by
  induction items generalizing pre p with
  | nil => rfl
  | cons ps items ih =>
    rw [blocksFrom, itemsFrom, Block.strays, Declared.straysOf]
    simp only [Preceding.block]
    cases Role.ofItem (tokensFrom p ps) <;> simp [ih]

theorem partsFrom_blocksFrom (rest : Text) :
    (partsFrom rest (blocksFrom pre p tail items)).map
        (fun part => (⟨part.header, part.item, part.strays⟩ : Declared))
      = Declared.ofItems (itemsFrom p items) := by
  induction items generalizing pre p with
  | nil => rfl
  | cons ps items ih =>
    rw [blocksFrom, itemsFrom, partsFrom, Declared.ofItems]
    simp only [Preceding.block]
    cases Role.ofItem (tokensFrom p ps) <;> simp [ih, strays_blocksFrom]

end

namespace Block

theorem import?_entries (layout : Layout) (start : Nat) (bs : List Block) :
    (entries layout start bs).filterMap CompilationUnit.Entry.import?
      = (bs.map role).filterMap Role.import? := by
  induction bs generalizing start with
  | nil => rfl
  | cons b bs ih =>
    rw [entries, List.filterMap_cons, ih, List.map_cons, List.filterMap_cons, entry]
    cases b.role <;> rfl

end Block

theorem imports_ofBlocks (code : Text) (items : List (List Piece)) (tail : Text) :
    (ofBlocks code (blocksOf items tail)).imports
      = (itemsFrom .start items).filterMap Item.import? := by
  rw [ofBlocks, ofEntries, Block.import?_entries, blocksOf, role_blocksFrom, List.filterMap_map]
  rfl

/-! ## Imports -/

theorem Import.isPlain_text {i : Import} (plain : i.name.IsPlain) : i.text.IsPlain := by
  have front :
      (Text.ofString "import " ++ if i.isStatic then Text.ofString "static " else []).IsPlain
      ∧ (Text.ofString "import " ++ if i.isStatic then Text.ofString "static " else []).getLast?
        ≠ some (ofChar '\\') := by
    cases i.isStatic <;> exact ⟨isPlain_of_noBackslash (by decide), by decide⟩
  have whole := (isPlain_append front.2).2 ⟨front.1, plain⟩
  exact whole.append_singleton (by decide)

theorem Import.isPlain_ofItem {item : Item}
    (plain : ∀ t ∈ item, t.value.IsPlain ∧ t.value.getLast? ≠ some (ofChar '\\')) :
    (Import.ofItem item).text.IsPlain := by
  apply Import.isPlain_text
  have joined {ts : List Token} (inside : ∀ t ∈ ts, t ∈ item) : (Item.joinValues ts).IsPlain :=
    (isPlain_flatMap fun t mem => plain t (inside t (List.mem_filter.1 mem).1)).1
  rw [Import.ofItem]
  split
  · rename_i t rest later
    have inside : ∀ t' ∈ t :: rest, t' ∈ item := by
      rw [← later]
      exact fun t' mem => List.mem_of_mem_drop mem
    split
    · exact joined fun t' mem => inside t' (List.mem_cons_of_mem _ mem)
    · exact joined inside
  · exact isPlain_nil

theorem opens_imports {items : List Item}
    (reads : ∀ item ∈ items, ∀ i, item.import? = some i → Reads i.text (item.map Token.bare)) :
    Opens ((items.filterMap Item.import?).flatMap fun i => i.text ++ [ofChar '\n'])
      ((items.filter fun item => item.import?.isSome).flatten.map Token.bare) := by
  induction items with
  | nil => exact opens_gap .nil isPlain_nil
  | cons item items ih =>
    rw [List.forall_mem_cons] at reads
    have later := ih reads.2
    rw [List.filterMap_cons, List.filter_cons]
    cases found : item.import? with
    | none => exact later
    | some i =>
      have line : Reads (i.text ++ []) (item.map Token.bare) := by
        rw [List.append_nil]
        exact reads.1 i found
      have opens := (line.append_break (by simp)).opens
      simpa using opens.append later

theorem Scanned.plain_values {code tail : Text} {items : List (List Piece)}
    (scanned : Scanned code items tail) : ∀ item ∈ itemsFrom .start items, ∀ t ∈ item,
      t.value.IsPlain ∧ t.value.getLast? ≠ some (ofChar '\\') := by
  intro item inside t mem
  have mem : t.bare ∈ items.flatten.map Piece.token := by
    rw [← bare_tokensFrom .start, ← flatten_itemsFrom]
    exact List.mem_map_of_mem (List.mem_flatten.2 ⟨item, inside, mem⟩)
  obtain ⟨p, inside, token⟩ := List.mem_map.1 mem
  have value : t.value = p.lexeme := (congrArg Token.value token).symm
  rw [value]
  refine ⟨(((isPlain_source scanned.fits).1 (scanned.whole ▸ scanned.plain)).1 p inside).2, ?_⟩
  obtain ⟨front, back, split⟩ := List.append_of_mem inside
  have fits := scanned.fits
  rw [split] at fits
  obtain ⟨-, -, lex, -⟩ := fits_append.1 fits
  intro last
  have ink := lex.last last
  simp [isInk] at ink

theorem Scanned.reads_import {code tail : Text} {items : List (List Piece)}
    (scanned : Scanned code items tail) {item : Item} {i : Import}
    (inside : item ∈ itemsFrom .start items) (returns : item.Returns)
    (found : item.import? = some i) : Reads i.text (item.map Token.bare) := by
  obtain ⟨read, ok, bare⟩ := Option.map_eq_some_iff.1 (returns i found)
  rw [← bare]
  refine reads_of_tokenize ?_ (toOption_eq_some.1 ok)
  have same : i = Import.ofItem item := by
    cases item with
    | nil => simp [Item.import?, Role.ofItem, Role.import?] at found
    | cons first item =>
      rw [Item.import?, Role.ofItem] at found
      split at found
      · simp [Role.import?] at found
      split at found
      · simpa [Role.import?] using found.symm
      split at found <;> simp [Role.import?] at found
  rw [same]
  exact Import.isPlain_ofItem (scanned.plain_values item inside)

/-! ## The files -/

theorem SplitFiles.fileText_eq (u : CompilationUnit) (t : TypeDecl) :
    fileText u t = (u.imports.flatMap fun i => i.text ++ [ofChar '\n'])
      ++ ((if u.imports.isEmpty then [] else [ofChar '\n'])
        ++ (stripRight (u.text t.span (publicEdit? t).toList) ++ [ofChar '\n'])) := by
  rw [fileText, publicBody, show Text.ofString "\n" = [ofChar '\n'] from rfl]
  cases none : u.imports.isEmpty with
  | true => simp [List.isEmpty_iff.1 none, ofLines_lines]
  | false =>
    simp only [Bool.false_eq_true, if_false]
    rw [ofLines_append _ (by simp), ofLines_cons _ (lines_ne_nil _), ofLines_lines,
      List.flatMap_map]
    simp

/-- The file of a type is read as the imports and then what the type's own text is read as. -/
theorem SplitFiles.reads_fileText {u : CompilationUnit} {t : TypeDecl} {items : List Item}
    {ts : List Token} (imports : u.imports = items.filterMap Item.import?)
    (returns : ∀ item ∈ items, ∀ i, item.import? = some i → Reads i.text (item.map Token.bare))
    (body : Reads (u.text t.span (publicEdit? t).toList) ts) :
    Reads (fileText u t)
      ((items.filter fun item => item.import?.isSome).flatten.map Token.bare ++ ts) := by
  have opens := opens_imports returns
  rw [← imports] at opens
  have blank : Opens (if u.imports.isEmpty then [] else [ofChar '\n']) [] := by
    split
    · exact opens_gap .nil isPlain_nil
    · exact opens_gap (.blank (by decide) .nil) (isPlain_singleton _)
  obtain ⟨blanks, split, blanksBehind, -⟩ :=
    stripRight_split (u.text t.span (publicEdit? t).toList)
  rw [split] at body
  rw [fileText_eq]
  exact opens.append_reads (blank.append_reads (body.append_break blanksBehind))

theorem SplitFiles.files_ofUnit {u : CompilationUnit}
    (distinct : (u.types.map TypeDecl.name).Nodup) :
    (ofUnit u).files = u.types.map fun t => (fileName t, fileText u t) := by
  apply Files.ofPairs_of_nodup
  have names := distinct.map fun (x y : Text) same =>
    List.append_cancel_right (show x ++ sourceExtension = y ++ sourceExtension from same)
  rw [List.map_map] at names ⊢
  exact names

theorem map_eq_map_of_forall₂ {α β γ : Type} {relates : α → β → Prop} {f : α → γ} {g : β → γ}
    {xs : List α} {ys : List β} (all : List.Forall₂ relates xs ys)
    (same : ∀ x ∈ xs, ∀ y ∈ ys, relates x y → f x = g y) : xs.map f = ys.map g := by
  induction all with
  | nil => rfl
  | cons first _ ih =>
    rw [List.map_cons, List.map_cons, same _ List.mem_cons_self _ List.mem_cons_self first,
      ih fun x xMem y yMem =>
        same x (List.mem_cons_of_mem _ xMem) y (List.mem_cons_of_mem _ yMem)]

theorem Scanned.parts {code tail : Text} {items : List (List Piece)}
    (scanned : Scanned code items tail) (placed : Placed code items.flatten) :
    List.Forall₂ (Shows (ofBlocks code (blocksOf items tail)))
      (ofBlocks code (blocksOf items tail)).types
      (partsFrom (restOf items tail) (blocksOf items tail)) := by
  apply Block.shows_typesOf [] (isSound_blocksFrom scanned.fits scanned.nonempty .nothing .start)
    _ scanned.text rfl
  intro xs b ys split
  exact spots_blocksFrom placed scanned.nonempty split

theorem Scanned.holds {code tail : Text} {items : List (List Piece)}
    (scanned : Scanned code items tail)
    (apart : (ofBlocks code (blocksOf items tail)).IsApart) :
    ∀ part ∈ partsFrom (restOf items tail) (blocksOf items tail), part.Holds :=
  holds_partsFrom (fun _ _ _ split => scanned.stands split) (scanned.isGap_of_isApart apart)
    scanned.reads_rest

/-- Each type's file is read as the imports, the type made public and the strays behind it. -/
theorem SplitFiles.reads_files {source : Text} {u : CompilationUnit} {tokens : List Token}
    {result : SplitFiles} (plain : source.unifyBreaks.IsPlain)
    (parsed : parse source = .ok u) (read : tokenize u.code = .ok tokens)
    (ran : split source = .ok result) (distinct : (u.types.map TypeDecl.name).Nodup)
    (placed : Placed u.code (Scan.run u.code).1) (apart : u.IsApart)
    (loose : ∀ t ∈ u.types, u.IsLoose t) (returns : ∀ item ∈ Item.group tokens, item.Returns) :
    List.Forall₂ (fun (d : Declared) file => file.1 = d.header.name ++ sourceExtension ∧
        Reads file.2 (((((Item.group tokens).filter fun item => item.import?.isSome).flatten
          ++ d.published).map Token.bare)))
      (Declared.ofItems (Item.group tokens)) result.files := by
  obtain ⟨items, tail, scanned, whole⟩ := exists_scanned_of_parse plain parsed placed
  rw [run_eq scanned] at placed
  have grouped : Item.group tokens = itemsFrom .start items := by
    rw [← scanned.grouped]
    rw [tokenize, Text.decodeEscapes_of_isPlain scanned.plain, ok_bind, run_eq scanned] at read
    rw [← Except.ok.inj read]
  rw [grouped] at returns ⊢
  have imports := imports_ofBlocks u.code items tail
  rw [← whole] at imports
  have shows := scanned.parts placed
  rw [← whole] at shows
  have holds := scanned.holds (whole ▸ apart)
  rw [split, parsed, ok_bind] at ran
  rw [← Except.ok.inj ran, SplitFiles.files_ofUnit distinct,
    ← partsFrom_blocksFrom .nothing .start tail items (restOf items tail),
    List.forall₂_map_left_iff, List.forall₂_map_right_iff]
  rw [List.forall₂_iff_zip] at shows
  refine List.Forall₂.flip (List.forall₂_iff_zip.2 ⟨shows.1, fun {t part} mem => ?_⟩)
  have tMem := (List.of_mem_zip mem).1
  have holds := holds part (List.of_mem_zip mem).2
  have shows := shows.2 mem
  have body := holds.reads (Header.isPlain_publishPieces holds.plain)
    (fun s fits => shows.fits_public fits (loose t tMem))
  rw [← shows.text_eq (shows.edited_public holds.fits.isInk),
    Header.token_publishPieces shows.tokens] at body
  have reads := SplitFiles.reads_fileText imports
    (fun item inside i found => scanned.reads_import inside (returns item inside) found) body
  refine ⟨?_, ?_⟩
  · rw [SplitFiles.fileName, TypeDecl.name, shows.header]
  · rwa [Declared.published, List.map_append, List.map_append]

/-- Each type's file has the tokens of the imports, of the type made public and of the strays behind
it, if every token is found where it stands, no type begins in a comment, no inserted `public` joins
what stands before it, and every import is written as it was read. -/
theorem tokenize_split {source : Text} {u : CompilationUnit} {tokens : List Token}
    {result : SplitFiles} (plain : source.unifyBreaks.IsPlain)
    (parsed : parse source = .ok u) (read : tokenize u.code = .ok tokens)
    (ran : split source = .ok result) (distinct : (u.types.map TypeDecl.name).Nodup)
    (placed : Placed u.code (Scan.run u.code).1) (apart : u.IsApart)
    (loose : ∀ t ∈ u.types, u.IsLoose t) (returns : ∀ item ∈ Item.group tokens, item.Returns) :
    result.files.tokenized = Declared.files (Item.group tokens) := by
  have reads :=
    SplitFiles.reads_files plain parsed read ran distinct placed apart loose returns
  rw [Declared.files, Files.tokenized]
  refine (map_eq_map_of_forall₂ reads fun d _ file _ is => ?_).symm
  obtain ⟨tokens, ok, bare⟩ := tokenize_of_reads is.2
  rw [ok, is.1, Except.map, bare]

/-- Two types with an import before them and a stray in between. -/
def strewn : Text :=
  "import a.B;\n@X class A {}\n; // c\nprivate class C {}\n"

theorem tokenize_split_strewn : ∃ u tokens result, parse strewn = .ok u ∧
    tokenize u.code = .ok tokens ∧ split strewn = .ok result ∧
    result.files.tokenized = Declared.files (Item.group tokens) := by
  have checked : ∃ u ∈ (parse strewn).toOption, ∃ tokens ∈ (tokenize u.code).toOption,
      ∃ result ∈ (split strewn).toOption, (u.types.map TypeDecl.name).Nodup ∧
        (∀ p ∈ (Scan.run u.code).1, ofChar '\n' ∉ p.lexeme) ∧ u.IsApart ∧
        (∀ t ∈ u.types, u.IsLoose t) ∧ ∀ item ∈ Item.group tokens, item.Returns := by
    rw [strewn, ofString_ofList]
    decide +kernel
  obtain ⟨u, parsed, tokens, read, result, ran, distinct, solid, apart, loose, returns⟩ := checked
  have parsed := toOption_eq_some.1 parsed
  have read := toOption_eq_some.1 read
  have ran := toOption_eq_some.1 ran
  exact ⟨u, tokens, result, parsed, read, ran, tokenize_split (by decide +kernel) parsed read ran
    distinct (placed_run solid) apart loose returns⟩

/-- A comment between two types that goes on before the second on its line. -/
def straddling : Text :=
  "class A {} /* x\n */ class B {}\n"

/-- A comment is cut in two where a type begins on the comment's last line. -/
theorem tokenize_split_straddling : ∃ u result, parse straddling = .ok u ∧
    split straddling = .ok result ∧ straddling.unifyBreaks.IsPlain ∧
    (u.types.map TypeDecl.name).Nodup ∧
    ∃ file ∈ result.files, (tokenize file.2).isOk = false := by
  have checked : ∃ u ∈ (parse straddling).toOption, ∃ result ∈ (split straddling).toOption,
      straddling.unifyBreaks.IsPlain ∧ (u.types.map TypeDecl.name).Nodup ∧
        ∃ file ∈ result.files, (tokenize file.2).isOk = false := by
    decide +kernel
  obtain ⟨u, parsed, result, ran, rest⟩ := checked
  exact ⟨u, result, toOption_eq_some.1 parsed, toOption_eq_some.1 ran, rest⟩

end JavaUnits
