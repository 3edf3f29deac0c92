import JavaUnits.Proofs.Forms
import JavaUnits.Proofs.Order

/-!
Imports as they are written and read back. The line of an import of a plain name is read as the
tokens of its declaration, on its own and in a block of such lines. So two imports are written alike
just when their declarations have the same tokens, and a merge writes all that have the same tokens
in one line and no others there.
-/

namespace JavaUnits

open CodePoint Token Text CompilationUnit

namespace Item

/-- The line in which the import is written that the item declares. -/
def line (item : Item) : Text :=
  (Import.ofItem item).text

def names (item : Item) : List Text :=
  (item.filter Token.isIdentifier).map Token.value

/-- Whether the import says what is written in the item: `static` or not, a star or not, and the
names. -/
structure Describes (item : Item) (i : Import) : Prop where
  isStatic : i.isStatic = item.any Token.isModifier
  isWildcard : i.isWildcard = item.any fun t => t.kind = .operator
  simpleName? : i.simpleName? = if i.isWildcard then none else item.names.getLast?
  ownerName? : i.ownerName? = if i.isWildcard then item.names.getLast? else item.names.reverse[1]?

variable {item other : Item} {block : List Item}

/-! ## What an import says -/

section

variable {path : List Token} (isPath : isPath path = true) (lexed : ∀ t ∈ path, t.IsLexed)

include isPath lexed

theorem splitOn_path {s : Text} (first : (splitOn (ofChar '.') s).head? = some []) :
    splitOn (ofChar '.') (path.flatMap Token.value ++ s)
      = names path ++ (splitOn (ofChar '.') s).tail := by
  have noDot {t : Token} (is : t.isIdentifier = true) (isLexed : t.IsLexed) :
      ofChar '.' ∉ t.value := by
    intro dot
    exact absurd ((isLexed.isName is).continues _ dot) (by decide +kernel)
  fun_induction Token.isPath path with
  | case1 => simp at isPath
  | case2 t =>
    have front := noDot isPath (lexed t (by simp))
    rw [List.flatMap_singleton, splitOn_append_of_notMem front, first]
    simp [names, isPath]
  | case3 t dot ts ih =>
    simp only [Bool.and_eq_true] at isPath
    obtain ⟨⟨is, isDot⟩, isPath⟩ := isPath
    simp only [List.forall_mem_cons] at lexed
    have front := noDot is lexed.1
    obtain ⟨kind, value⟩ := isSeparator_iff.1 isDot
    have value : dot.value = [ofChar '.'] := value
    have other : dot.isIdentifier = false := by simp [isIdentifier, kind]
    rw [List.flatMap_cons, List.flatMap_cons, List.append_assoc, List.append_assoc, value,
      splitOn_append_of_notMem front, List.singleton_append, splitOn_cons, if_pos rfl,
      List.head?_cons, List.tail_cons, ih isPath lexed.2.2]
    simp [names, is, other]

theorem endsWith_path : endsWith (path.flatMap Token.value) (Text.ofString ".*") = false := by
  obtain ⟨init, last, rfl, is⟩ := isPath_last isPath
  have name := (lexed last (by simp)).isName is
  rw [Bool.eq_false_iff]
  intro ends
  obtain ⟨front, same⟩ := List.isSuffixOf_iff_suffix.1 ends
  obtain ⟨c, u, value, -⟩ := name.head
  have star : ofChar '*' ∈ last.value := by
    have ends := congrArg List.getLast? same
    rw [List.flatMap_append, List.flatMap_singleton, List.getLast?_append, List.getLast?_append,
      value, List.getLast?_cons, Option.some_or] at ends
    rw [value]
    apply List.mem_of_getLast?
    rw [List.getLast?_cons]
    exact ends.symm
  exact absurd (name.continues _ star) (by decide +kernel)

end

section

variable {keyword mark : Token} {scope : Option Token} {path : List Token}
  {wildcard : Option (Token × Token)}

theorem kinds_importDecl
    (formed : (Declaration.importDecl keyword scope path wildcard mark).IsFormed)
    (lexed : keyword.IsLexed) : keyword.kind = .keyword ∧ (∀ t ∈ scope, t.kind = .modifier) ∧
      (∀ t ∈ path, t.kind = .identifier ∨ t.kind = .separator) ∧
      (∀ w ∈ wildcard, w.1.kind = .separator ∧ w.2.kind = .operator) ∧ mark.kind = .separator := by
  obtain ⟨isKeyword, isStatic, isPath, isWildcard, isMark⟩ := formed
  refine ⟨?_, fun t mem => (isStatic t mem).1, fun t mem => ?_, fun w mem => ?_,
    (isSeparator_iff.1 isMark).1⟩
  · obtain ⟨isWord, value⟩ := isKeyword_iff.1 isKeyword
    rw [(lexed (Kind.isWord_of_isKeyword isWord)).1, value]
    decide
  · exact (isPath_mem isPath t mem).imp isIdentifier_iff.1 fun is => (isSeparator_iff.1 is).1
  · exact ⟨(isSeparator_iff.1 (isWildcard w mem).1).1, (isWildcard w mem).2.1⟩

theorem marks_importDecl
    (formed : (Declaration.importDecl keyword scope path wildcard mark).IsFormed)
    (lexed : keyword.IsLexed) :
    (Declaration.importDecl keyword scope path wildcard mark).tokens.any Token.isModifier
        = scope.isSome ∧
      ((Declaration.importDecl keyword scope path wildcard mark).tokens.any fun t =>
        t.kind = .operator) = wildcard.isSome ∧
      names (Declaration.importDecl keyword scope path wildcard mark).tokens = names path := by
  obtain ⟨keywordKind, scopeKind, pathKind, wildcardKind, markKind⟩ := kinds_importDecl formed lexed
  have noModifier : path.any Token.isModifier = false := by
    rw [List.any_eq_false]
    intro t mem
    rcases pathKind t mem with is | is <;> simp [isModifier, is]
  have noOperator : (path.any fun t => t.kind = .operator) = false := by
    rw [List.any_eq_false]
    intro t mem
    rcases pathKind t mem with is | is <;> simp [is]
  simp only [Declaration.tokens, names, List.any_cons, List.any_append, noModifier, noOperator]
  cases scope <;> cases wildcard <;> simp_all [isModifier, isIdentifier]

end

theorem IsImport.exists_form (isImport : item.IsImport) :
    ∃ keyword scope path wildcard mark,
      item = (Declaration.importDecl keyword scope path wildcard mark).tokens ∧
      (Declaration.importDecl keyword scope path wildcard mark).IsFormed := by
  obtain ⟨keyword, scope, path, wildcard, mark, rfl, isKeyword, isScope, isPath, isWildcard,
    isMark⟩ := isImport
  obtain ⟨scope, rfl, isStatic⟩ : ∃ scope? : Option Token, scope = scope?.toList ∧
      ∀ t ∈ scope?, t.kind = .modifier ∧ t.value = Text.ofString "static" := by
    rcases isScope with rfl | ⟨t, rfl, is⟩
    · exact ⟨none, rfl, by simp⟩
    · exact ⟨some t, rfl, by simpa using is⟩
  obtain ⟨wildcard, rfl, isStar⟩ : ∃ wildcard? : Option (Token × Token),
      wildcard = (wildcard?.elim [] fun w => [w.1, w.2]) ∧
      ∀ w ∈ wildcard?, w.1.isSeparator "." = true ∧ w.2.kind = .operator ∧
        w.2.value = Text.ofString "*" := by
    rcases isWildcard with rfl | ⟨dot, star, rfl, is⟩
    · exact ⟨none, rfl, by simp⟩
    · exact ⟨some (dot, star), rfl, by simpa using is⟩
  exact ⟨keyword, scope, path, wildcard, mark, rfl, isKeyword, isStatic, isPath, isStar, isMark⟩

theorem IsImport.describes (isImport : item.IsImport) (lexed : ∀ t ∈ item, t.IsLexed) :
    item.Describes (.ofItem item) := by
  obtain ⟨keyword, scope, path, wildcard, mark, rfl, formed⟩ := isImport.exists_form
  have lexedPath : ∀ t ∈ path, t.IsLexed := fun t mem => lexed t (by simp [Declaration.tokens, mem])
  have isPath := formed.2.2.1
  obtain ⟨static, star, names⟩ :=
    marks_importDecl formed (lexed keyword (by simp [Declaration.tokens]))
  have read := Declaration.ofItem_importDecl formed lexedPath
  rw [Declaration.import?, Option.some.injEq] at read
  rw [read]
  cases wildcard with
  | none =>
    have isWildcard := endsWith_path isPath lexedPath
    have parts := @splitOn_path _ isPath lexedPath [] rfl
    simp only [Option.isSome_none, Bool.false_eq_true, if_false, List.append_nil, splitOn_nil,
      List.tail_cons] at star parts ⊢
    refine ⟨static.symm, isWildcard.trans star.symm, ?_, ?_⟩
    · rw [Import.simpleName?, Import.isWildcard, isWildcard, names, Import.parts, parts]
    · rw [Import.ownerName?, Import.isWildcard, isWildcard, names, Import.parts, parts]
      rfl
  | some w =>
    have parts := @splitOn_path _ isPath lexedPath (Text.ofString ".*") rfl
    have isWildcard : endsWith (path.flatMap Token.value ++ Text.ofString ".*")
        (Text.ofString ".*") = true :=
      List.isSuffixOf_iff_suffix.2 (List.suffix_append _ _)
    simp only [Option.isSome_some, if_true] at star ⊢
    refine ⟨static.symm, isWildcard.trans star.symm, ?_, ?_⟩
    · rw [Import.simpleName?, Import.isWildcard, isWildcard]
      rfl
    · rw [Import.ownerName?, Import.isWildcard, isWildcard, names, Import.parts, parts,
        List.reverse_append, List.getLast?_eq_head?_reverse, List.head?_eq_getElem?]
      rfl

/-! ## Lines that are read back -/

theorem IsImport.value_mem (isImport : item.IsImport) (lexed : ∀ t ∈ item, t.IsLexed) :
    ∀ t ∈ item, ∀ c ∈ t.value, c.continuesName = true ∨ c ∈ Text.ofString ".*;" := by
  obtain ⟨keyword, scope, path, wildcard, mark, rfl, formed⟩ := isImport.exists_form
  obtain ⟨keywordKind, scopeKind, pathKind, -⟩ :=
    kinds_importDecl formed (lexed keyword (by simp [Declaration.tokens]))
  obtain ⟨-, -, isPath, isWildcard, isMark⟩ := formed
  have word {t : Token} (isLexed : t.IsLexed) (isWord : t.kind.isWord = true) :
      ∀ c ∈ t.value, c.continuesName = true ∨ c ∈ Text.ofString ".*;" :=
    fun c mem => .inl ((isLexed isWord).2.continues c mem)
  have separator {t : Token} {value : Text} (is : t.isSeparator value = true)
      (within : ∀ c ∈ value, c ∈ Text.ofString ".*;") :
      ∀ c ∈ t.value, c.continuesName = true ∨ c ∈ Text.ofString ".*;" := by
    rw [(isSeparator_iff.1 is).2]
    exact fun c mem => .inr (within c mem)
  intro t mem
  have isLexed := lexed t mem
  simp only [Declaration.tokens, List.mem_cons, List.mem_append, Option.mem_toList,
    List.not_mem_nil, or_false] at mem
  rcases mem with rfl | mem | mem | mem | rfl
  · exact word isLexed (by rw [keywordKind]; rfl)
  · exact word isLexed (by rw [scopeKind t mem]; rfl)
  · rcases isPath_mem isPath t mem with is | is
    · exact fun c mem => .inl ((isLexed.isName is).continues c mem)
    · exact separator is (by decide)
  · cases wildcard with
    | none => cases mem
    | some w =>
      obtain ⟨isDot, -, isStar⟩ := isWildcard w rfl
      simp only [Option.elim_some, List.mem_cons, List.not_mem_nil, or_false] at mem
      rcases mem with rfl | rfl
      · exact separator isDot (by decide)
      · have within : ∀ c ∈ Text.ofString "*", c ∈ Text.ofString ".*;" := by decide
        rw [isStar]
        exact fun c mem => .inr (within c mem)
  · exact separator isMark (by decide)

theorem IsImport.notMem (isImport : item.IsImport) (lexed : ∀ t ∈ item, t.IsLexed) {c : CodePoint}
    (noName : c.continuesName = false) (noMark : c ∉ Text.ofString "import static ;.*") :
    (∀ t ∈ item, c ∉ t.value) ∧ c ∉ item.line := by
  have words : ∀ d ∈ Text.ofString "import static ;", d ∈ Text.ofString "import static ;.*" := by
    decide
  have marks : ∀ d ∈ Text.ofString ".*;", d ∈ Text.ofString "import static ;.*" := by decide
  have values : ∀ t ∈ item, c ∉ t.value := by
    intro t isToken mem
    rcases isImport.value_mem lexed t isToken c mem with continues | mark
    · rw [noName] at continues
      cases continues
    · exact noMark (marks c mark)
  refine ⟨values, fun mem => ?_⟩
  rcases Import.mem_text mem with word | ⟨t, isToken, mem⟩
  · exact noMark (words c word)
  · exact values t isToken mem

theorem IsImport.reads_line (isImport : item.IsImport) (lexed : ∀ t ∈ item, t.IsLexed) :
    Reads item.line (item.map Token.bare) := by
  obtain ⟨noBackslash, -⟩ := isImport.notMem lexed (c := ofChar '\\')
    (by decide +kernel) (by decide)
  apply isImport.reads lexed
  exact fun t mem => ⟨isPlain_of_noBackslash (noBackslash t mem), fun last =>
    noBackslash t mem (List.mem_of_getLast? last)⟩

theorem reads_lines (each : ∀ item ∈ block, Reads item.line (item.map Token.bare)) :
    Reads (ofLines (block.map line)) (block.map (List.map Token.bare)).flatten := by
  rcases List.eq_nil_or_concat block with rfl | ⟨init, last, rfl⟩
  · exact reads_tail IsGap.nil.tail isPlain_nil
  · have opens : Opens (init.flatMap fun item => item.line ++ [ofChar '\n'])
        (init.flatMap fun item => item.map Token.bare) := by
      apply opens_flatMap
      intro item mem
      have reads : Reads (item.line ++ []) (item.map Token.bare) := by
        rw [List.append_nil]
        exact each item (by simp [mem])
      exact (reads.append_break (by simp)).opens
    have whole := opens.append_reads (each last (by simp))
    have alone : ofLines [last.line] = last.line := by simp [ofLines, join]
    rw [List.concat_eq_append, List.map_append, List.map_singleton, ofLines_append _ (by simp),
      List.flatMap_map, alone, List.map_append, List.flatten_append, ← List.flatMap_def]
    simpa using whole

end Item

/-- Whether the item imports a plain name and stands in a text that can be parsed. -/
def Item.IsImported (item : Item) : Prop :=
  item.IsImport ∧ ∃ s u, parse s = .ok u ∧ item ∈ s.items

namespace Item

variable {item other : Item} {block : List Item}

theorem isLexed_of_mem_items {s : Text} {u : CompilationUnit} (parsed : parse s = .ok u)
    (mem : item ∈ s.items) : ∀ t ∈ item, t.IsLexed := by
  obtain ⟨ts, read⟩ := exists_tokenize_of_parse parsed
  rw [items_of_tokenize read] at mem
  exact fun t isToken => isLexed_of_tokenize read t (mem_of_mem_group mem isToken)

theorem IsImported.isLexed (imported : item.IsImported) : ∀ t ∈ item, t.IsLexed := by
  obtain ⟨-, s, u, parsed, mem⟩ := imported
  exact isLexed_of_mem_items parsed mem

theorem IsImported.reads_line (imported : item.IsImported) :
    Reads item.line (item.map Token.bare) :=
  imported.1.reads_line imported.isLexed

/-- Imports are written alike if and only if their declarations have the same tokens. -/
theorem IsImported.line_eq_iff (imported : item.IsImported) (imported' : other.IsImported) :
    item.line = other.line ↔ item.map Token.bare = other.map Token.bare := by
  constructor
  · intro same
    have reads := imported.reads_line
    rw [same] at reads
    exact reads.unique imported'.reads_line
  · intro same
    rw [line, line, ← Import.ofItem_bare, same, Import.ofItem_bare]

theorem IsImport.import?_eq (isImport : item.IsImport) : item.import? = some (.ofItem item) := by
  rw [import?, isImport.role]
  rfl

/-- A block of lines is parsed as the imports that they are written for. -/
theorem exists_parse_lines (imported : ∀ item ∈ block, item.IsImported) :
    ∃ u, parse (ofLines (block.map line)) = .ok u ∧ u.imports = block.map Import.ofItem := by
  have noReturn : ofChar '\r' ∉ ofLines (block.map line) := by
    intro mem
    rcases mem_ofLines mem with same | ⟨l, isLine, mem⟩
    · exact absurd same (by decide)
    · obtain ⟨item, inside, rfl⟩ := List.mem_map.1 isLine
      exact ((imported item inside).1.notMem (imported item inside).isLexed
        (by decide +kernel) (by decide)).2 mem
  obtain ⟨-, -, u, parsed, outlines⟩ := (reads_lines fun item mem => (imported item mem).reads_line)
    |>.exists_parse_items noReturn
      (fun item mem => IsDeclaration.isClosed (.inr (.inl (imported item mem).1)))
      fun item mem => ((imported item mem).1.notMem (imported item mem).isLexed
        (by decide +kernel) (by decide)).1
  refine ⟨u, parsed, ?_⟩
  rw [outlines.imports, ← List.filterMap_eq_map]
  exact List.filterMap_congr fun item mem => (imported item mem).1.import?_eq

end Item

/-! ## Lines of a merge -/

/-- Whether the import that the item declares is written in line `k` of the imports. -/
def Merged.WritesAt (r : Merged) (k : Nat) (item : Item) : Prop :=
  r.imports[k]? = some item.line

namespace Merge

variable {sources : Files} {asked : Option Text} {configured : Text} {r : Merged} {item : Item}

theorem nodup_imports (merged : merge sources asked configured = .ok r) : r.imports.Nodup := by
  obtain ⟨p, defined, es, c, -, -, -, -, rfl⟩ := merge_eq_ok merged
  exact (Text.perm_sort _).nodup_iff.2 (nodup_eraseDups _)

/-- An import is written unless it reaches for a type that the sources define. -/
theorem line_mem_imports {defined : List Text} {file : Text × Text}
    (merged : merge sources asked configured = .ok r) (found : definedNames sources = .ok defined)
    (isFile : file ∈ sources) (mem : item ∈ file.2.items) (isImport : item.IsImport)
    (other : (Import.ofItem item).isSelf defined = false) : item.line ∈ r.imports := by
  obtain ⟨p, defined', es, c, -, found', extracted, suits, rfl⟩ := merge_eq_ok merged
  obtain rfl : defined = defined' := Except.ok.inj (found.symm.trans found')
  obtain ⟨e, inside, u, parsed, rfl⟩ := exists_right_of_mem extracted isFile
  have declared : Import.ofItem item ∈ u.imports := by
    rw [(outlines_of_parse parsed).imports]
    exact List.mem_filterMap.2 ⟨item, mem, isImport.import?_eq⟩
  exact mem_imports.2 ⟨_, inside, _, List.mem_filter.2 ⟨declared, by simpa using other⟩, rfl⟩

/-- An import that is written stands in one line, and in this line stand those alone whose
declarations have the same tokens. -/
theorem exists_writesAt (merged : merge sources asked configured = .ok r)
    (imported : item.IsImported) (mem : item.line ∈ r.imports) :
    ∃ k, (∀ j, r.WritesAt j item ↔ j = k) ∧ ∀ other : Item, other.IsImported →
      (r.WritesAt k other ↔ item.map Token.bare = other.map Token.bare) := by
  obtain ⟨k, inside, here⟩ := List.mem_iff_getElem.1 mem
  have writes : r.imports[k]? = some item.line := by rw [List.getElem?_eq_getElem inside, here]
  refine ⟨k, fun j => ?_, fun other imported' => ?_⟩
  · rw [Merged.WritesAt, ← writes, eq_comm,
      List.getElem?_inj inside (nodup_imports merged), eq_comm]
  · rw [Merged.WritesAt, writes, Option.some.injEq]
    exact imported.line_eq_iff imported'

end Merge

/-- An import of a text, whatever stands between its tokens, says what is written, and its line is
parsed as the same import, on its own and in a block of lines. It has the line of just those imports
whose declarations have the same tokens, and these share a line of every merge that writes it. -/
theorem parse_line {s : Text} {u : CompilationUnit} {item : Item} (parsed : parse s = .ok u)
    (mem : item ∈ s.items) (isImport : item.IsImport) :
    u.imports = s.items.filterMap Item.import? ∧ item.import? = some (.ofItem item) ∧
    item.Describes (.ofItem item) ∧
    (∃ v, parse item.line = .ok v ∧ v.imports = [.ofItem item]) ∧
    (∀ front back : List Item, (∀ other ∈ front ++ back, other.IsImported) →
      ∃ v, parse (ofLines ((front ++ item :: back).map Item.line)) = .ok v ∧
        v.imports = front.map Import.ofItem ++ .ofItem item :: back.map Import.ofItem) ∧
    (∀ other : Item, other.IsImported →
      (item.line = other.line ↔ item.map Token.bare = other.map Token.bare)) ∧
    ∀ (sources : Files) (asked : Option Text) (configured path : Text) (r : Merged)
      (defined : List Text), merge sources asked configured = .ok r →
      Merge.definedNames sources = .ok defined → (path, s) ∈ sources →
      (Import.ofItem item).isSelf defined = false →
      ∃ k, (∀ j, r.WritesAt j item ↔ j = k) ∧ ∀ other : Item, other.IsImported →
        (r.WritesAt k other ↔ item.map Token.bare = other.map Token.bare) := by
  have imported : item.IsImported := ⟨isImport, s, u, parsed, mem⟩
  have alone : ofLines [item.line] = item.line := by simp [ofLines, join]
  refine ⟨(outlines_of_parse parsed).imports, isImport.import?_eq,
    isImport.describes imported.isLexed, ?_, fun front back others => ?_,
    fun other => imported.line_eq_iff, ?_⟩
  · rw [← alone]
    exact Item.exists_parse_lines (List.forall_mem_singleton.2 imported)
  · have all : ∀ other ∈ front ++ item :: back, other.IsImported := by
      rw [List.forall_mem_append] at others ⊢
      exact ⟨others.1, List.forall_mem_cons.2 ⟨imported, others.2⟩⟩
    obtain ⟨v, parsed, imports⟩ := Item.exists_parse_lines all
    exact ⟨v, parsed, by simpa using imports⟩
  · intro sources asked configured path r defined merged found isFile other
    exact Merge.exists_writesAt merged imported
      (Merge.line_mem_imports merged found isFile mem isImport other)

/-- An import of all that a type holds, and another that is written twice, with comments and line
breaks between the tokens. -/
def sprawling : Text :=
  "import/* ; */static\n  a . // b\n B\t. * ;import x.Größe;\n"
    ++ "import x /* y */ .\n\nGröße;\n"
    ++ "public class A \x7b public static void main(String[] a) \x7b\x7d \x7d\n"

def sprawlingStar : Declaration :=
  .importDecl ⟨.keyword, "import", ⟨1, 1⟩⟩ (some ⟨.modifier, "static", ⟨1, 14⟩⟩)
    [⟨.identifier, "a", ⟨2, 3⟩⟩, ⟨.separator, ".", ⟨2, 5⟩⟩, ⟨.identifier, "B", ⟨3, 2⟩⟩]
    (some (⟨.separator, ".", ⟨3, 4⟩⟩, ⟨.operator, "*", ⟨3, 6⟩⟩)) ⟨.separator, ";", ⟨3, 8⟩⟩

def sprawlingName : Declaration :=
  .importDecl ⟨.keyword, "import", ⟨3, 9⟩⟩ none
    [⟨.identifier, "x", ⟨3, 16⟩⟩, ⟨.separator, ".", ⟨3, 17⟩⟩, ⟨.identifier, "Größe", ⟨3, 18⟩⟩]
    none ⟨.separator, ";", ⟨3, 23⟩⟩

def sprawlingAgain : Declaration :=
  .importDecl ⟨.keyword, "import", ⟨4, 1⟩⟩ none
    [⟨.identifier, "x", ⟨4, 8⟩⟩, ⟨.separator, ".", ⟨4, 18⟩⟩, ⟨.identifier, "Größe", ⟨6, 1⟩⟩]
    none ⟨.separator, ";", ⟨6, 6⟩⟩

theorem parse_line_sprawling : ∃ u v r, parse sprawling = .ok u ∧
    sprawlingName.tokens ∈ sprawling.items ∧ Item.IsImport sprawlingName.tokens ∧
    Item.Describes sprawlingName.tokens ⟨Text.ofString "x.Größe", false⟩ ∧
    parse (ofLines ([sprawlingStar, sprawlingName, sprawlingAgain].map fun d =>
      Item.line d.tokens)) = .ok v ∧
    v.imports = [⟨Text.ofString "a.B.*", true⟩, ⟨Text.ofString "x.Größe", false⟩,
      ⟨Text.ofString "x.Größe", false⟩] ∧
    merge [("A.java", sprawling)] none "last" = .ok r ∧
    ∃ k, (∀ j, r.WritesAt j sprawlingName.tokens ↔ j = k) ∧
      r.WritesAt k sprawlingAgain.tokens ∧ ¬r.WritesAt k sprawlingStar.tokens := by
  have items : sprawling.items.take 3
      = [sprawlingStar.tokens, sprawlingName.tokens, sprawlingAgain.tokens] := by
    rw [sprawling, ofString_ofList, ofString_ofList, ofString_ofList]
    decide +kernel
  have inside {item : Item} (mem : item ∈ sprawling.items.take 3) : item ∈ sprawling.items :=
    List.mem_of_mem_take mem
  rw [items] at inside
  have formed : sprawlingStar.IsFormed ∧ sprawlingName.IsFormed ∧ sprawlingAgain.IsFormed := by
    decide
  obtain ⟨parses, merges, found⟩ : (parse sprawling).toOption.isSome ∧
      (merge [("A.java", sprawling)] none "last").toOption.isSome ∧
      (Merge.definedNames [("A.java", sprawling)]).toOption = some [Text.ofString "A"] := by
    rw [sprawling, ofString_ofList, ofString_ofList, ofString_ofList]
    decide +kernel
  obtain ⟨u, parsed⟩ := exists_eq_ok parses
  obtain ⟨r, merged⟩ := exists_eq_ok merges
  have found := toOption_eq_some.1 found
  have starImported : Item.IsImported sprawlingStar.tokens :=
    ⟨formed.1.isImport, sprawling, u, parsed, inside (by simp)⟩
  have againImported : Item.IsImported sprawlingAgain.tokens :=
    ⟨formed.2.2.isImport, sprawling, u, parsed, inside (by simp)⟩
  have mem : sprawlingName.tokens ∈ sprawling.items := inside (by simp)
  have isImport := formed.2.1.isImport
  obtain ⟨-, -, describes, -, block, -, lines⟩ := parse_line parsed mem isImport
  obtain ⟨v, read, imports⟩ := block [sprawlingStar.tokens] [sprawlingAgain.tokens]
    (by simp [starImported, againImported])
  obtain ⟨k, alone, same⟩ := lines _ none "last" "A.java" r _ merged found (by simp) (by decide)
  refine ⟨u, v, r, parsed, mem, isImport, describes, read, imports, merged, k, alone,
    (same _ againImported).2 (by decide), fun writes => ?_⟩
  exact absurd ((same _ starImported).1 writes) (by decide)

end JavaUnits
