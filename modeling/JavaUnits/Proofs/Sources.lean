import JavaUnits.Proofs.Imports
import JavaUnits.Proofs.Outlines

/-!
Sources that are made of complete declarations, and what a merge of them is parsed as: the imports
that are written, and the types of the files in their order, those of the chosen file last. A type
of another file is no longer public; nothing else about it changes.
-/

namespace JavaUnits

open CodePoint Token Scan Text CompilationUnit

/-! ## What declarations are -/

namespace Item

variable {item : Item}

theorem IsPackage.role (package : item.IsPackage) :
    Role.ofItem item = .package (joinValues (item.drop 1)) := by
  obtain ⟨keyword, path, mark, rfl, isKeyword, -⟩ := package
  rw [Role.ofItem, if_pos isKeyword]

theorem IsImport.role (isImport : item.IsImport) :
    Role.ofItem item = .importDecl (.ofItem item) := by
  obtain ⟨keyword, scope, path, wildcard, mark, rfl, isKeyword, -⟩ := isImport
  have other : keyword.isKeyword (Text.ofString "package") = false := by
    rw [Token.isKeyword, (isKeyword_iff.1 isKeyword).2, Bool.and_eq_false_iff]
    exact .inr (by decide)
  rw [Role.ofItem, other, isKeyword]
  rfl

end Item

namespace Header

theorem parensAfter_balanced {n : Nat} {xs : List Token}
    (balanced : balances opensParen closesParen n xs = true) (m : Nat) :
    parensAfter (n + m) xs = m := by
  induction xs generalizing n with
  | nil =>
    rw [balances, beq_iff_eq] at balanced
    rw [balanced, Nat.zero_add]
    rfl
  | cons t xs ih =>
    rw [balances] at balanced
    rw [parensAfter]
    split
    · rename_i opens
      rw [if_pos opens] at balanced
      rw [Nat.add_right_comm]
      exact ih balanced
    rename_i opens
    rw [if_neg opens] at balanced
    split
    · rename_i closes
      rw [if_pos closes, Bool.and_eq_true, bne_iff_ne] at balanced
      rw [Nat.sub_add_comm (by omega)]
      exact ih balanced.2
    · rename_i closes
      rw [if_neg closes] at balanced
      exact ih balanced

theorem parensAfter_quiet {n : Nat} {xs : List Token}
    (quiet : ∀ t ∈ xs, t.opensParen = false ∧ t.closesParen = false) : parensAfter n xs = n := by
  induction xs with
  | nil => rfl
  | cons t xs ih =>
    obtain ⟨⟨opens, closes⟩, rest⟩ := List.forall_mem_cons.1 quiet
    rw [parensAfter, opens, closes]
    exact ih rest

theorem parensAfter_marks {ms : List Token} (marks : IsMarks ms) : parensAfter 0 ms = 0 := by
  induction marks with
  | nil => rfl
  | @modifier t ts kind mem _ ih =>
    obtain ⟨-, -, opens, closes, -⟩ := isModifier_apart kind mem
    rw [parensAfter, opens, closes]
    exact ih
  | @annotated sign path arguments ts kind isPath isArguments _ ih =>
    obtain ⟨-, -, opens, closes, -⟩ := atSign_apart kind
    have names := isPlainName_of_isPath isPath
    have closed : parensAfter 0 arguments = 0 := by
      rcases isArguments with rfl | ⟨opening, inner, closing, rfl, opens, closes, balanced, -⟩
      · rfl
      · have other : closing.opensParen = false := eq_of_isSeparator closes (by decide)
        have last : parensAfter 1 [closing] = 0 := by simp [parensAfter, other, closes]
        rw [parensAfter, if_pos opens, parensAfter_append, parensAfter_balanced balanced 1, last]
    rw [parensAfter, opens, closes, if_neg (by simp), if_neg (by simp), parensAfter_append,
      parensAfter_quiet fun t mem => ⟨(names t mem).opensParen, (names t mem).closesParen⟩,
      parensAfter_append, closed, ih]

end Header

namespace TypeSyntax

open Header

variable {d : TypeSyntax}

theorem IsFormed.head (formed : d.IsFormed) :
    ∃ first rest, d.tokens = first :: rest ∧ first.isKeyword "package" = false ∧
      first.isKeyword "import" = false := by
  have word {t : Token} {words : List Text} (mem : t.value ∈ words)
      (other : Text.ofString "package" ∉ words ∧ Text.ofString "import" ∉ words) :
      t.isKeyword "package" = false ∧ t.isKeyword "import" = false := by
    constructor
    · rw [isKeyword, Bool.and_eq_false_iff, beq_eq_false_iff_ne]
      exact .inr fun same => other.1 (same ▸ mem)
    · rw [isKeyword, Bool.and_eq_false_iff, beq_eq_false_iff_ne]
      exact .inr fun same => other.2 (same ▸ mem)
  have sign {t : Token} (kind : t.kind = .atSign) :
      t.isKeyword "package" = false ∧ t.isKeyword "import" = false := by
    simp [isKeyword, kind, Kind.isKeyword]
  have marks := formed.marks
  rw [tokens]
  cases begins : d.marks with
  | cons t ts =>
    refine ⟨t, _, rfl, ?_⟩
    rw [begins] at marks
    cases marks with
    | modifier kind mem _ => exact word mem (by decide)
    | annotated kind _ _ _ => exact sign kind
  | nil =>
    rcases formed.sign with none | ⟨t, one, kind⟩
    · rw [none]
      have opens := formed.keyword
      simp only [opensType, Bool.and_eq_true, List.contains_iff_mem] at opens
      exact ⟨_, _, rfl, word opens.1.2 (by decide)⟩
    · rw [one]
      exact ⟨_, _, rfl, sign kind⟩

theorem IsFormed.role (formed : d.IsFormed) : Role.ofItem d.tokens = .type d.header := by
  obtain ⟨first, rest, whole, package, import_⟩ := formed.head
  have found := formed.ofItem?
  rw [whole] at found ⊢
  rw [Role.ofItem, package, import_, found]
  rfl

theorem IsSound.role (sound : d.IsSound) : Role.ofItem d.tokens = .type d.header :=
  sound.isFormed.role

theorem IsSound.visibilityToken_eq (sound : d.IsSound) {t : Token} (mem : t ∈ modifiersOf d.marks)
    (is : t.isVisibility = true) : d.header.visibilityToken = some t := by
  have one := sound.visibility
  have inside := List.mem_filter.2 ⟨mem, is⟩
  have first : d.header.visibilityToken = ((modifiersOf d.marks).filter isVisibility).head? :=
    List.head?_filter.symm
  match all : (modifiersOf d.marks).filter isVisibility with
  | [] => simp [all] at inside
  | [v] =>
    rw [all, List.mem_singleton] at inside
    rw [first, all, inside]
    rfl
  | _ :: _ :: _ => simp [all] at one

theorem isVisibility_of_value {t : Token} (value : t.value = Text.ofString "public") :
    t.isVisibility = true := by
  rw [isVisibility, value]
  decide

theorem IsSound.modifiers_demoted (sound : d.IsSound) :
    d.header.modifiers.filter (fun word => word != Text.ofString "public")
      = if d.header.visibility = .publicAccess then
          ((modifiersOf d.marks).filter fun t => !t.isVisibility).map Token.value
        else d.header.modifiers := by
  have visibility {t : Token} (mem : t ∈ modifiersOf d.marks) (is : t.isVisibility = true) :
      d.header.visibility = .publicAccess ↔ t.value = Text.ofString "public" := by
    obtain ⟨access, found⟩ := Option.isSome_iff_exists.1 is
    obtain ⟨word, other⟩ := ofModifier?_eq_some found
    rw [Header.visibility, sound.visibilityToken_eq mem is, Option.bind_some, found, ← word]
    revert other
    cases access <;> decide
  rw [header, List.filter_map]
  split
  case isTrue isPublic =>
    congr 1
    refine List.filter_congr fun t mem => ?_
    cases is : t.isVisibility with
    | true => simpa using (visibility mem is).1 isPublic
    | false =>
      simp only [Function.comp_apply, Bool.not_false, bne_iff_ne]
      intro value
      simp [isVisibility_of_value value] at is
  case isFalse other =>
    congr 1
    refine List.filter_eq_self.2 fun t mem => ?_
    simp only [Function.comp_apply, bne_iff_ne]
    exact fun value => other ((visibility mem (isVisibility_of_value value)).2 value)

theorem IsSound.exists_conceal (sound : d.IsSound) (nodup : d.tokens.Nodup) :
    ∃ ms, d.header.conceal d.tokens = (d.withMarks ms).tokens ∧ (d.withMarks ms).IsSound ∧
      modifiersOf ms = (modifiersOf d.marks).filter fun t => !t.isVisibility := by
  obtain ⟨front, visible, back, turns⟩ := sound.exists_turns
  refine ⟨front ++ back, ?_, turns.isSound_hidden sound, turns.modifiersOf_hidden⟩
  rw [tokens, turns.marks] at nodup ⊢
  cases visible with
  | none => rw [conceal_of_none turns.visibilityToken]; rfl
  | some v =>
    simp only [Option.toList_some, List.append_assoc, List.cons_append, List.nil_append] at nodup ⊢
    have apart : v ∉ front := fun mem => (List.nodup_append.1 nodup).2.2 v mem v (by simp) rfl
    rw [conceal_of_some turns.visibilityToken apart]
    simp [tokens, TypeSyntax.withMarks]

end TypeSyntax

/-! ## Profiles -/

/-- What a header tells of its type to those who use it. -/
structure Profile where
  name : Text
  kind : TypeKind
  modifiers : List Text
  declaresMain : Bool
  deriving DecidableEq

def Profile.demoted (p : Profile) : Profile :=
  { p with modifiers := p.modifiers.filter fun word => word != Text.ofString "public" }

def Header.profile (h : Header) : Profile :=
  ⟨h.name, h.kind, h.modifiers, h.declaresMain⟩

namespace TypeSyntax

open Header

variable {d : TypeSyntax}

theorem IsSound.detaches (sound : d.IsSound) : Item.Detaches d.tokens := by
  intro h found isPublic t before
  obtain rfl := Option.some.inj ((Option.mem_def.1 found).symm.trans sound.ofItem?).symm
  obtain ⟨front, visible, back, turns⟩ := sound.exists_turns
  cases visible with
  | none =>
    rw [Header.visibility, turns.visibilityToken] at isPublic
    cases isPublic
  | some v =>
    obtain ⟨kind, mem, is⟩ := turns.shows v rfl
    have mark : v.IsMark := ⟨kind, (isModifier_apart kind mem).2.2.2.2.2 none⟩
    have hidden := turns.hidden
    simp only [List.mem_append, or_imp, forall_and] at hidden
    rw [tokens, turns.marks, Option.toList_some, List.append_assoc, List.append_assoc,
      List.singleton_append,
      beforeVisibility?_append (parensAfter_marks turns.before) hidden.1 mark is,
      Option.or_none, Option.mem_def] at before
    rcases last_marks turns.before t before with ⟨kind, mem⟩ | kind | closes
    · simp [leavesOff, kind, Kind.isWord, (isModifier_apart kind mem).2.2.2.2.2 none]
    · simp [leavesOff, kind, Kind.isWord,
        Item.opensType_of_not_isKeyword (t := t) (by rw [kind]; rfl)]
    · simp only [closesParen, isSeparator, Bool.and_eq_true, beq_iff_eq] at closes
      rw [leavesOff, closes.1, closes.2, Bool.or_eq_true]
      exact .inr (by decide)

theorem IsSound.exists_left (sound : d.IsSound) (nodup : d.tokens.Nodup) :
    ∃ d' : TypeSyntax, d'.IsSound ∧ Item.left true d.tokens = d'.tokens ∧
      d'.header.profile = d.header.profile.demoted ∧ d'.header.visibility ≠ .publicAccess := by
  have left : Item.left true d.tokens = d.header.demote d.tokens := by
    rw [Item.left, sound.role]
    rfl
  have filtered := sound.modifiers_demoted
  rw [left, demote]
  split
  case isTrue isPublic =>
    rw [if_pos isPublic] at filtered
    obtain ⟨ms, tokens, hidden, modifiers⟩ := sound.exists_conceal nodup
    refine ⟨_, hidden, tokens, ?_, ?_⟩
    · rw [profile, profile, Profile.demoted, filtered, ← modifiers]
      rfl
    · have none : (d.withMarks ms).header.visibilityToken = none := by
        rw [header, TypeSyntax.withMarks, modifiers, List.find?_eq_none]
        simp
      rw [Header.visibility, none]
      decide
  case isFalse other =>
    rw [if_neg other] at filtered
    refine ⟨d, sound, rfl, ?_, other⟩
    rw [profile, Profile.demoted, filtered]

end TypeSyntax

/-! ## Sources -/

namespace Item

variable {item : Item}

theorem IsImport.reads (isImport : item.IsImport) (lexed : ∀ t ∈ item, t.IsLexed)
    (plain : ∀ t ∈ item, t.value.IsPlain ∧ t.value.getLast? ≠ some (ofChar '\\')) :
    Reads (Import.ofItem item).text (item.map Token.bare) := by
  obtain ⟨ps, text, -, fits, tokens⟩ := isImport.exists_pieces lexed
  exact ⟨ps, [], by rw [text, List.append_nil], fits [], IsGap.nil.tail,
    Import.isPlain_ofItem plain, tokens⟩

theorem IsImport.returns (isImport : item.IsImport) (lexed : ∀ t ∈ item, t.IsLexed)
    (plain : ∀ t ∈ item, t.value.IsPlain ∧ t.value.getLast? ≠ some (ofChar '\\')) :
    item.Returns := by
  rintro i found
  obtain ⟨-, rfl⟩ := import?_eq_some (Option.mem_def.1 found)
  obtain ⟨read, ok, bare⟩ := tokenize_of_reads (isImport.reads lexed plain)
  rw [ok, ← bare]
  rfl

theorem ofItem?_eq_none (quiet : ∀ t ∈ item, ∀ previous, t.opensType previous = false) :
    Header.ofItem? item = none := by
  rw [Option.eq_none_iff_forall_not_mem]
  intro h found
  obtain ⟨before, name, rest, whole, -, ⟨previous, opens⟩, -⟩ :=
    Header.ofItem?_split (Option.mem_def.1 found)
  rw [quiet h.keyword (by simp [whole]) previous] at opens
  cases opens

theorem IsDeclaration.detaches (declaration : item.IsDeclaration) : item.Detaches := by
  have quiet {xs : List Token} {mark : Token} (isMark : mark.isSemicolon = true)
      (quiet : ∀ t ∈ xs, t.opensBrace = false ∧ t.closesBrace = false ∧ t.isSemicolon = false ∧
        ∀ previous, t.opensType previous = false) : Detaches (xs ++ [mark]) := by
    have none : Header.ofItem? (xs ++ [mark]) = none := by
      refine ofItem?_eq_none (List.forall_mem_append.2 ⟨fun t mem => (quiet t mem).2.2.2, ?_⟩)
      rw [List.forall_mem_singleton]
      exact opensType_of_not_isKeyword (by rw [(isSeparator_iff.1 isMark).1]; rfl)
    intro h found
    rw [none] at found
    cases found
  rcases declaration with package | import_ | ⟨d, sound, rfl⟩
  · obtain ⟨xs, mark, rfl, isMark, all⟩ := package.exists_quiet
    exact quiet isMark all
  · obtain ⟨xs, mark, rfl, isMark, all⟩ := import_.exists_quiet
    exact quiet isMark all
  · exact sound.detaches

theorem IsDeclaration.returns (declaration : item.IsDeclaration) (lexed : ∀ t ∈ item, t.IsLexed)
    (plain : ∀ t ∈ item, t.value.IsPlain ∧ t.value.getLast? ≠ some (ofChar '\\')) :
    item.Returns := by
  rcases declaration with package | import_ | ⟨d, sound, rfl⟩
  · simp [Returns, import?, package.role, Role.import?]
  · exact import_.returns lexed plain
  · simp [Returns, import?, sound.role, Role.import?]

end Item

/-- Whether the text has no escapes, no carriage returns and no literals that go over several lines,
and is made of complete declarations. -/
structure Text.IsSource (s : Text) : Prop where
  plain : s.IsPlain
  noReturn : ofChar '\r' ∉ s
  solid : ∀ item ∈ s.items, ∀ t ∈ item, ofChar '\n' ∉ t.value
  declares : ∀ item ∈ s.items, item.IsDeclaration

/-- A text that can be read is a source exactly if its tokens are those of declarations, one behind
the other: these are its items then. -/
theorem Text.isSource_iff {s : Text} {tokens : List Token} (read : tokenize s = .ok tokens) :
    s.IsSource ↔ s.IsPlain ∧ ofChar '\r' ∉ s ∧ (∀ t ∈ tokens, ofChar '\n' ∉ t.value) ∧
      ∃ items : List Item, items.flatten = tokens ∧ ∀ item ∈ items, item.IsDeclaration := by
  have grouped (noReturn : ofChar '\r' ∉ s) : s.items = Item.group tokens :=
    items_of_tokenize (by rwa [unifyBreaks_of_notMem noReturn])
  constructor
  · intro isSource
    have same := grouped isSource.noReturn
    refine ⟨isSource.plain, isSource.noReturn, ?_, s.items, ?_, isSource.declares⟩
    · intro t mem
      rw [← Item.flatten_group tokens, ← same] at mem
      obtain ⟨item, inside, mem⟩ := List.mem_flatten.1 mem
      exact isSource.solid item inside t mem
    · rw [same, Item.flatten_group]
  · rintro ⟨plain, noReturn, solid, items, rfl, declares⟩
    have same : s.items = items := by
      rw [grouped noReturn, Item.group_of_flatten fun item mem => (declares item mem).isClosed]
    refine ⟨plain, noReturn, ?_, by rwa [same]⟩
    rw [same]
    exact fun item inside t mem => solid t (List.mem_flatten_of_mem inside mem)

namespace Text.IsSource

variable {s : Text} {u : CompilationUnit}

theorem isPlaced (isSource : s.IsSource) (parsed : parse s = .ok u) : s.IsPlaced :=
  isPlaced_of_solid ((unifyBreaks_of_notMem isSource.noReturn).symm ▸ isSource.plain) parsed
    isSource.solid

theorem isWhole (isSource : s.IsSource) (parsed : parse s = .ok u) : s.IsWhole := by
  have isPlaced := isSource.isPlaced parsed
  obtain ⟨items, tail, scanned, -, -, same⟩ := isPlaced.exists_scanned parsed
  have lexed : ∀ item ∈ s.items, ∀ t ∈ item, t.IsLexed := by
    intro item inside t mem
    have isToken : t.bare ∈ items.flatten.map Piece.token := by
      rw [← bare_tokensFrom .start, ← flatten_itemsFrom, ← same]
      exact List.mem_map_of_mem (List.mem_flatten_of_mem inside mem)
    obtain ⟨p, isPiece, bare⟩ := List.mem_map.1 isToken
    have lexed := scanned.fits.isLexed p isPiece
    rwa [bare] at lexed
  have plain := scanned.plain_values
  rw [← same] at plain
  exact ⟨⟨isPlaced, fun item mem => (isSource.declares item mem).returns (lexed item mem)
    (plain item mem), fun item mem => (isSource.declares item mem).detaches⟩, isSource.solid,
    fun item mem => (isSource.declares item mem).isClosed⟩

theorem leaves_declares (isSource : s.IsSource) (parsed : parse s = .ok u) (demoted : Bool) :
    ∀ item ∈ s.leaves demoted, item.IsTypeDeclaration := by
  intro item mem
  obtain ⟨item, kept, rfl⟩ := List.mem_map.1 mem
  obtain ⟨inside, other⟩ := List.mem_filter.1 kept
  rcases isSource.declares item inside with package | import_ | ⟨d, sound, rfl⟩
  · simp [package.role, Role.isDirective] at other
  · simp [import_.role, Role.isDirective] at other
  · cases demoted with
    | true =>
      obtain ⟨d', sound', left, -⟩ :=
        sound.exists_left ((isSource.isPlaced parsed).isRead parsed _ inside).nodup
      exact ⟨d', sound', left⟩
    | false =>
      refine ⟨d, sound, ?_⟩
      rw [Item.left, sound.role]
      rfl

/-- The types of a source that is demoted differ in their modifiers alone, and none is public. -/
theorem headers_demoted (isSource : s.IsSource) (parsed : parse s = .ok u) :
    ((s.leaves true).filterMap Item.header?).map Header.profile
        = u.types.map (fun t => t.header.profile.demoted) ∧
      ∀ h ∈ (s.leaves true).filterMap Item.header?, h.visibility ≠ .publicAccess := by
  have isPlaced := isSource.isPlaced parsed
  have headers : u.types.map (fun t => t.header.profile.demoted)
      = (s.items.filterMap Item.header?).map fun h => h.profile.demoted := by
    rw [← isPlaced.headers_eq parsed, List.map_map]
    rfl
  have declares := isSource.declares
  have read := isPlaced.isRead parsed
  rw [headers, leaves, List.filterMap_map]
  generalize s.items = items at declares read ⊢
  induction items with
  | nil => exact ⟨rfl, by simp⟩
  | cons item items ih =>
    rw [List.forall_mem_cons] at declares read
    obtain ⟨profiles, hidden⟩ := ih declares.2 read.2
    rcases declares.1 with package | import_ | ⟨d, sound, rfl⟩
    · have none : item.header? = none := by rw [Item.header?, package.role]; rfl
      rw [List.filter_cons_of_neg (by simp [package.role, Role.isDirective]),
        List.filterMap_cons_none none]
      exact ⟨profiles, hidden⟩
    · have none : item.header? = none := by rw [Item.header?, import_.role]; rfl
      rw [List.filter_cons_of_neg (by simp [import_.role, Role.isDirective]),
        List.filterMap_cons_none none]
      exact ⟨profiles, hidden⟩
    · obtain ⟨d', sound', left, profile, isHidden⟩ := sound.exists_left read.1.nodup
      have header : Item.header? d.tokens = some d.header := by rw [Item.header?, sound.role]; rfl
      have turned : (Item.header? ∘ Item.left true) d.tokens = some d'.header := by
        rw [Function.comp_apply, left, Item.header?, sound'.role]
        rfl
      rw [List.filter_cons_of_pos (by simp [sound.role, Role.isDirective]),
        List.filterMap_cons_some header, List.filterMap_cons_some turned, List.map_cons,
        List.map_cons, profiles, profile, List.forall_mem_cons]
      exact ⟨rfl, isHidden, hidden⟩

end Text.IsSource

/-! ## Merges -/

def Text.profiles (s : Text) : List Profile :=
  ((parse s).toOption.map fun u => u.types.map fun t => t.header.profile).getD []

/-- The names of the public types of a source that declare a main method. -/
def Text.entryPoints (s : Text) : List Text :=
  ((parse s).toOption.map fun u => u.entryPoints.map TypeDecl.name).getD []

namespace Merge

/-- Whether the policy chooses the file for its entry point among the files before and after it. -/
structure Chooses (p : Policy) (before : Files) (chosen : Text × Text) (after : Files)
    (name : Text) : Prop where
  main : chosen.2.entryPoints.head? = some name
  first : p = .first → ∀ file ∈ before, file.2.entryPoints = []
  last : p ≠ .first → ∀ file ∈ after, file.2.entryPoints = []
  alone : p = .fail → ∀ file ∈ before ++ after, file.2.entryPoints = []

variable {sources : Files} {defined : List Text} {es : List Extract} {c : Choice} {p : Policy}

theorem Extracted.mainClassName_eq (extracted : Extracted sources defined es) :
    List.Forall₂ (fun file e => file.2.entryPoints.head? = e.mainClassName) sources es := by
  refine extracted.imp ?_
  rintro file _ ⟨u, parsed, rfl⟩
  rw [Text.entryPoints, parsed]
  exact List.head?_map

theorem Extracted.entryPoints_eq_nil (extracted : Extracted sources defined es)
    (none : ∀ e ∈ es, e.isCandidate = false) : ∀ file ∈ sources, file.2.entryPoints = [] := by
  intro file mem
  obtain ⟨e, isExtract, same⟩ := exists_right_of_mem extracted.mainClassName_eq mem
  rw [← List.head?_eq_none_iff, same]
  simpa [Extract.isCandidate] using none e isExtract

/-- A merge that succeeds has chosen one of the sources. -/
theorem Extracted.exists_chooses (extracted : Extracted sources defined es)
    (suits : c.Suits p es) : ∃ before chosen after, sources = before ++ chosen :: after ∧
      Chooses p before chosen after (ofChoice es c).mainClassName ∧
      Extracted (before ++ after) defined c.others ∧ Extracted [chosen] defined [c.chosen] := by
  obtain ⟨before, chosen, after, split, front, taken, back⟩ := extracted.exists_split suits.all
  have others : Extracted (before ++ after) defined c.others := List.rel_append front back
  refine ⟨before, chosen, after, split, ⟨?_, fun is => ?_, fun is => ?_, fun is => ?_⟩, others,
    taken⟩
  · obtain ⟨name, isMain⟩ := Option.isSome_iff_exists.1 suits.candidate
    rw [(List.forall₂_cons.1 taken.mainClassName_eq).1, ofChoice, isMain]
    rfl
  · exact front.entryPoints_eq_nil (suits.first is)
  · exact back.entryPoints_eq_nil (suits.last is)
  · exact others.entryPoints_eq_nil (suits.alone is)

theorem map_text_imports {lines : List Item} {texts : List Text}
    (written : List.Forall₂ Writes lines texts) :
    (lines.filterMap Item.import?).map Import.text = texts := by
  induction written with
  | nil => rfl
  | cons writes _ ih =>
    obtain ⟨i, found, rfl⟩ := writes
    rw [List.filterMap_cons_some found, List.map_cons, ih]

theorem import?_isSome {lines : List Item} {texts : List Text}
    (written : List.Forall₂ Writes lines texts) : ∀ item ∈ lines, item.import?.isSome = true := by
  intro item mem
  obtain ⟨line, -, i, found, -⟩ := exists_right_of_mem written mem
  rw [found]
  rfl

/-- What the content of a merge is parsed as: no package, the imports that are written, and the
types that the sources leave. -/
theorem Extracted.parse_sources (extracted : Extracted sources defined es)
    (isSource : ∀ file ∈ sources, file.2.IsSource) (all : c.all = es) {before after : Files}
    {chosen : Text × Text} (split : sources = before ++ chosen :: after)
    (others : Extracted (before ++ after) defined c.others)
    (taken : Extracted [chosen] defined [c.chosen]) :
    ∃ u, parse (ofChoice es c).content = .ok u ∧ u.package = none ∧
      u.imports.map Import.text = (ofChoice es c).imports ∧
      u.types.map (fun t => t.header.bare)
        = (((before ++ after).flatMap fun file : Text × Text =>
            (file.2.leaves true).filterMap Item.header?)
          ++ (chosen.2.leaves false).filterMap Item.header?).map Header.bare := by
  have parsed (file : Text × Text) (mem : file ∈ sources) : ∃ u, parse file.2 = .ok u := by
    obtain ⟨e, -, u, parsed, -⟩ := exists_right_of_mem extracted mem
    exact ⟨u, parsed⟩
  have declares (demoted : Bool) (file : Text × Text) (mem : file ∈ sources) :
      ∀ item ∈ file.2.leaves demoted, item.package? = none ∧ item.import? = none := by
    intro item isItem
    obtain ⟨u, parsed⟩ := parsed file mem
    obtain ⟨d, sound, rfl⟩ := (isSource file mem).leaves_declares parsed demoted item isItem
    rw [Item.package?, Item.import?, sound.role]
    exact ⟨rfl, rfl⟩
  obtain ⟨u, lines, ok, written, outlines⟩ := extracted.parse_content (fun file mem =>
    (isSource file mem).isWhole (parsed file mem).choose_spec) all split others taken
  have imports := import?_isSome written
  obtain ⟨chosenInside, inside⟩ := mem_of_split split
  have types : ∀ item ∈ (before ++ after).flatMap (fun file : Text × Text => file.2.leaves true)
      ++ chosen.2.leaves false, item.package? = none ∧ item.import? = none := by
    intro item mem
    rw [List.mem_append, List.mem_flatMap] at mem
    rcases mem with ⟨file, isFile, mem⟩ | mem
    · exact declares true file (inside file isFile) item mem
    · exact declares false chosen chosenInside item mem
  refine ⟨u, ok, ?_, ?_, ?_⟩
  · rw [outlines.package, List.filterMap_append,
      List.filterMap_eq_nil_iff.2 fun item mem => Item.package?_of_import? (imports item mem),
      List.filterMap_eq_nil_iff.2 fun item mem => (types item mem).1]
    rfl
  · rw [outlines.imports, List.filterMap_append,
      List.filterMap_eq_nil_iff.2 fun item mem => (types item mem).2, List.append_nil]
    exact map_text_imports written
  · rw [outlines.headers, List.filterMap_append,
      List.filterMap_eq_nil_iff.2 fun item mem => Item.header?_of_import? (imports item mem),
      List.nil_append, List.filterMap_append, List.filterMap_flatMap]

end Merge

theorem CompilationUnit.publicTypes_names {u : CompilationUnit} {hs : List Header}
    (headers : u.types.map (fun t => t.header.bare) = hs.map Header.bare) :
    u.publicTypes.map TypeDecl.name
      = (hs.filter fun h => h.visibility = .publicAccess).map Header.name := by
  have names (hs : List Header) : (hs.filter fun h => h.visibility = .publicAccess).map Header.name
      = ((hs.map Header.bare).filter fun h => h.visibility = .publicAccess).map Header.name := by
    rw [List.filter_map, List.map_map]
    congr 1
    exact List.filter_congr fun h _ => by rw [Function.comp_apply, h.visibility_bare]
  rw [names, ← headers, publicTypes, List.filter_map, List.map_map]
  congr 1
  exact List.filter_congr fun t _ => by
    rw [Function.comp_apply, t.header.visibility_bare, TypeDecl.isPublic]

/-- An entry point is the only public type if there is only one. -/
theorem CompilationUnit.publicTypes_of_entryPoint {u : CompilationUnit} {name : Text}
    (single : u.publicTypes.length ≤ 1)
    (main : (u.entryPoints.map TypeDecl.name).head? = some name) :
    u.publicTypes.map TypeDecl.name = [name] := by
  rw [List.head?_map] at main
  obtain ⟨t, first, rfl⟩ := Option.map_eq_some_iff.1 main
  obtain ⟨inside, is⟩ := List.mem_filter.1 (List.mem_of_head? first)
  have isPublic : t ∈ u.publicTypes :=
    List.mem_filter.2 ⟨inside, (Bool.and_eq_true_iff.1 is).2⟩
  match types : u.publicTypes with
  | [] => simp [types] at isPublic
  | [t'] =>
    rw [types, List.mem_singleton] at isPublic
    rw [isPublic]
    rfl
  | _ :: _ :: _ => simp [types] at single

/-- What the content of a merge is parsed as. It has no package and the imports that are written.
The types of the files that are not chosen come first, in their order and no longer public, then
those of the chosen file as they are; of all these only the entry point is public. -/
theorem parse_merge {sources : Files} {asked : Option Text} {configured : Text} {r : Merged}
    (isSource : ∀ file ∈ sources, file.2.IsSource)
    (single : ∀ file ∈ sources, ∀ u, parse file.2 = .ok u → u.publicTypes.length ≤ 1)
    (merged : merge sources asked configured = .ok r) :
    ∃ p before chosen after u, Merge.policy asked configured = .ok p ∧
      sources = before ++ chosen :: after ∧
      Merge.Chooses p before chosen after r.mainClassName ∧
      parse r.content = .ok u ∧ u.package = none ∧ u.imports.map Import.text = r.imports ∧
      u.types.map (fun t => t.header.profile)
        = (before ++ after).flatMap (fun file => file.2.profiles.map Profile.demoted)
          ++ chosen.2.profiles ∧
      u.publicTypes.map TypeDecl.name = [r.mainClassName] := by
  obtain ⟨p, defined, es, c, policy, -, extracted, suits, rfl⟩ := merge_eq_ok merged
  obtain ⟨before, chosen, after, split, chooses, others, taken⟩ := extracted.exists_chooses suits
  obtain ⟨u, ok, package, imports, headers⟩ :=
    extracted.parse_sources isSource suits.all split others taken
  obtain ⟨chosenInside, inside⟩ := Merge.mem_of_split split
  have demoted (file : Text × Text) (mem : file ∈ before ++ after) :
      ((file.2.leaves true).filterMap Item.header?).map Header.profile
          = file.2.profiles.map Profile.demoted ∧
        ∀ h ∈ (file.2.leaves true).filterMap Item.header?, h.visibility ≠ .publicAccess := by
    obtain ⟨e, -, u, parsed, -⟩ := exists_right_of_mem extracted (inside file mem)
    obtain ⟨profiles, hidden⟩ := (isSource file (inside file mem)).headers_demoted parsed
    refine ⟨?_, hidden⟩
    rw [profiles, Text.profiles, parsed]
    simp [Except.toOption]
  obtain ⟨e, -, main, parsed, -⟩ := exists_right_of_mem extracted chosenInside
  have kept : (chosen.2.leaves false).filterMap Item.header? = main.types.map TypeDecl.header := by
    rw [headers_leaves, ((isSource chosen chosenInside).isPlaced parsed).headers_eq parsed]
  rw [kept] at headers
  refine ⟨p, before, chosen, after, u, policy, split, chooses, ok, package, imports, ?_, ?_⟩
  · have profiles := congrArg (List.map Header.profile) headers
    rw [List.map_map, List.map_map, List.map_append, List.map_flatMap, List.map_map] at profiles
    refine profiles.trans ?_
    rw [Text.profiles, parsed]
    congr 1
    exact List.flatMap_congr fun file mem => (demoted file mem).1
  · have none : ((before ++ after).flatMap fun file : Text × Text =>
        (file.2.leaves true).filterMap Item.header?).filter
          (fun h => h.visibility = .publicAccess) = [] := by
      refine List.filter_eq_nil_iff.2 fun h mem => ?_
      obtain ⟨file, isFile, mem⟩ := List.mem_flatMap.1 mem
      simpa using (demoted file isFile).2 h mem
    rw [publicTypes_names headers, List.filter_append, none, List.nil_append,
      ← publicTypes_names (u := main) (by rw [List.map_map]; rfl)]
    apply publicTypes_of_entryPoint (single chosen chosenInside main parsed)
    have isMain := chooses.main
    rw [Text.entryPoints, parsed] at isMain
    exact isMain

/-- Two sources, one of which declares a main method. -/
def neighbours : Files :=
  [("A.java", "import p.Q;\npublic class A {}\n"),
    ("B.java", "public final class B \x7b\n  public static void main(String[] a) \x7b\x7d\n\x7d\n")]

def neighbourA : TypeSyntax where
  marks := [⟨.modifier, "public", ⟨2, 1⟩⟩]
  sign := []
  keyword := ⟨.keyword, "class", ⟨2, 8⟩⟩
  name := ⟨.identifier, "A", ⟨2, 14⟩⟩
  tail := []
  opening := ⟨.separator, "\x7b", ⟨2, 16⟩⟩
  body := []
  closing := ⟨.separator, "\x7d", ⟨2, 17⟩⟩

def neighbourB : TypeSyntax where
  marks := [⟨.modifier, "public", ⟨1, 1⟩⟩, ⟨.modifier, "final", ⟨1, 8⟩⟩]
  sign := []
  keyword := ⟨.keyword, "class", ⟨1, 14⟩⟩
  name := ⟨.identifier, "B", ⟨1, 20⟩⟩
  tail := []
  opening := ⟨.separator, "\x7b", ⟨1, 22⟩⟩
  body := [⟨.modifier, "public", ⟨2, 3⟩⟩, ⟨.modifier, "static", ⟨2, 10⟩⟩,
    ⟨.keyword, "void", ⟨2, 17⟩⟩, ⟨.identifier, "main", ⟨2, 22⟩⟩, ⟨.separator, "(", ⟨2, 26⟩⟩,
    ⟨.identifier, "String", ⟨2, 27⟩⟩, ⟨.separator, "[", ⟨2, 33⟩⟩, ⟨.separator, "]", ⟨2, 34⟩⟩,
    ⟨.identifier, "a", ⟨2, 36⟩⟩, ⟨.separator, ")", ⟨2, 37⟩⟩, ⟨.separator, "\x7b", ⟨2, 39⟩⟩,
    ⟨.separator, "\x7d", ⟨2, 40⟩⟩]
  closing := ⟨.separator, "\x7d", ⟨3, 1⟩⟩

theorem isSound_neighbourA : neighbourA.IsSound where
  marks := .modifier rfl (by decide) .nil
  sign := .inl rfl
  keyword := by decide
  name := by decide
  tail := by decide
  opening := by decide
  body := by decide
  closing := by decide
  visibility := by decide

theorem isSound_neighbourB : neighbourB.IsSound where
  marks := .modifier rfl (by decide) (.modifier rfl (by decide) .nil)
  sign := .inl rfl
  keyword := by decide
  name := by decide
  tail := by decide
  opening := by decide
  body := by decide
  closing := by decide
  visibility := by decide

theorem isSource_neighbours : ∀ file ∈ neighbours, file.2.IsSource := by
  have first : Text.items "import p.Q;\npublic class A {}\n"
      = [[⟨.keyword, "import", ⟨1, 1⟩⟩, ⟨.identifier, "p", ⟨1, 8⟩⟩, ⟨.separator, ".", ⟨1, 9⟩⟩,
          ⟨.identifier, "Q", ⟨1, 10⟩⟩, ⟨.separator, ";", ⟨1, 11⟩⟩], neighbourA.tokens] := by
    rw [ofString_ofList]
    decide +kernel
  have second : Text.items
      "public final class B \x7b\n  public static void main(String[] a) \x7b\x7d\n\x7d\n"
      = [neighbourB.tokens] := by
    rw [ofString_ofList]
    decide +kernel
  have checked : ∀ file ∈ neighbours, file.2.IsPlain ∧ ofChar '\r' ∉ file.2 ∧
      ∀ item ∈ file.2.items, ∀ t ∈ item, ofChar '\n' ∉ t.value := by
    rw [neighbours, ofString_ofList, ofString_ofList, ofString_ofList, ofString_ofList]
    decide +kernel
  have declares : ∀ file ∈ neighbours, ∀ item ∈ file.2.items, item.IsDeclaration := by
    simp only [neighbours, List.forall_mem_cons]
    rw [first, second]
    simp only [List.forall_mem_cons]
    refine ⟨⟨?_, .inr (.inr ⟨_, isSound_neighbourA, rfl⟩), by simp⟩,
      ⟨.inr (.inr ⟨_, isSound_neighbourB, rfl⟩), by simp⟩, by simp⟩
    exact .inr (.inl ⟨_, [], _ :: _ :: [_], [], _, rfl, by decide, .inl rfl, by decide, .inl rfl,
      by decide⟩)
  exact fun file mem => ⟨(checked file mem).1, (checked file mem).2.1, (checked file mem).2.2,
    declares file mem⟩

theorem parse_merge_neighbours : ∃ r, merge neighbours none "last" = .ok r ∧
    ∃ p before chosen after u, Merge.policy none "last" = .ok p ∧
      neighbours = before ++ chosen :: after ∧
      Merge.Chooses p before chosen after r.mainClassName ∧
      parse r.content = .ok u ∧ u.package = none ∧ u.imports.map Import.text = r.imports ∧
      u.types.map (fun t => t.header.profile)
        = (before ++ after).flatMap (fun file => file.2.profiles.map Profile.demoted)
          ++ chosen.2.profiles ∧
      u.publicTypes.map TypeDecl.name = [r.mainClassName] := by
  obtain ⟨single, merges⟩ : (∀ file ∈ neighbours, ∀ u ∈ (parse file.2).toOption,
      u.publicTypes.length ≤ 1) ∧ (merge neighbours none "last").toOption.isSome := by
    rw [neighbours, ofString_ofList, ofString_ofList, ofString_ofList, ofString_ofList]
    decide +kernel
  obtain ⟨r, merged⟩ := exists_eq_ok merges
  exact ⟨r, merged, parse_merge isSource_neighbours
    (fun file mem u parsed => single file mem u (toOption_eq_some.2 parsed)) merged⟩

end JavaUnits
