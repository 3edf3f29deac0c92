import JavaUnits.Proofs.Scalars
import JavaUnits.Proofs.Sources

/-!
Declarations by their forms. A text whose tokens are package declarations, imports, types and empty
declarations, in any order, is parsed as what these say: the last package, the imports in their
order, and the types in theirs, each with the name, the kind, the modifiers, the visibility and the
anchor that are written.
-/

namespace JavaUnits

open Token Text CompilationUnit

/-! ## What tokens of a text are -/

namespace Text

variable {s : Text} {ts : List Token}

theorem isLexed_of_tokenize (read : tokenize s = .ok ts) : ∀ t ∈ ts, t.IsLexed := by
  intro t mem word
  obtain ⟨d, -, rfl⟩ := tokenize_eq_ok read
  obtain ⟨⟨rest, lex⟩, -⟩ := lexeme_of_mem_tokens mem
  obtain ⟨kind, name, -⟩ := lex.name word
  exact ⟨kind, name⟩

theorem value_of_atSign (read : tokenize s = .ok ts) :
    ∀ t ∈ ts, t.kind = .atSign → t.value = Text.ofString "@" := by
  intro t mem kind
  obtain ⟨d, -, rfl⟩ := tokenize_eq_ok read
  obtain ⟨⟨rest, lex⟩, -⟩ := lexeme_of_mem_tokens mem
  rw [kind] at lex
  exact lex.atSign

end Text

/-! ## Marks -/

/-- What stands in parentheses behind the name of an annotation. -/
structure Arguments where
  opening : Token
  inner : List Token
  closing : Token
  deriving DecidableEq

namespace Arguments

def tokens (a : Arguments) : List Token :=
  a.opening :: (a.inner ++ [a.closing])

/-- Whether brackets belong together. -/
@[mk_iff] structure IsBalanced (a : Arguments) : Prop where
  opening : a.opening.opensParen = true
  closing : a.closing.closesParen = true
  parens : balances opensParen closesParen 0 a.inner = true
  braces : balances opensBrace closesBrace 0 a.inner = true

instance (a : Arguments) : Decidable a.IsBalanced :=
  decidable_of_iff _ (isBalanced_iff a).symm

/-- Whether neither statements nor types stand among the arguments; class literals may. -/
def IsPlain (a : Arguments) : Prop :=
  a.IsBalanced ∧ (∀ t ∈ a.inner, t.isSemicolon = false) ∧ opensNone (some a.opening) a.inner = true

instance (a : Arguments) : Decidable a.IsPlain :=
  inferInstanceAs (Decidable (_ ∧ _ ∧ _))

theorem IsPlain.isArguments {a : Arguments} (plain : a.IsPlain) : IsArguments a.tokens := by
  obtain ⟨⟨opening, closing, parens, braces⟩, noMark, noType⟩ := plain
  exact ⟨_, _, _, rfl, opening, closing, parens, braces, noMark, noType⟩

/-- The tokens of arguments that may be left out. -/
def tokens? (arguments : Option Arguments) : List Token :=
  (arguments.map tokens).getD []

theorem isArguments_tokens? {arguments : Option Arguments} (plain : ∀ a ∈ arguments, a.IsPlain) :
    tokens? arguments = [] ∨ IsArguments (tokens? arguments) := by
  cases arguments with
  | none => exact .inl rfl
  | some a => exact .inr (plain a rfl).isArguments

end Arguments

/-- A modifier or an annotation. -/
inductive Mark where
  | modifier (word : Token)
  | annotated (sign : Token) (path : List Token) (arguments : Option Arguments)
  deriving DecidableEq

namespace Mark

def tokens : Mark → List Token
  | modifier word => [word]
  | annotated sign path arguments => sign :: (path ++ Arguments.tokens? arguments)

def word? : Mark → Option Token
  | modifier word => some word
  | annotated _ _ _ => none

/-- Whether the mark is a modifier, or an annotation whose arguments are such as `asked`. -/
def IsFormed (asked : Arguments → Prop) : Mark → Prop
  | modifier word => word.kind = .modifier ∧ word.value ∈ modifiers
  | annotated sign path arguments =>
    sign.kind = .atSign ∧ isPath path = true ∧ ∀ a ∈ arguments, asked a

instance (asked : Arguments → Prop) [DecidablePred asked] (m : Mark) :
    Decidable (m.IsFormed asked) :=
  match m with
  | modifier _ => inferInstanceAs (Decidable (_ ∧ _))
  | annotated _ _ _ => inferInstanceAs (Decidable (_ ∧ _ ∧ _))

variable {m : Mark} {ms : List Mark}

theorem IsFormed.isMarks (formed : m.IsFormed Arguments.IsPlain) : IsMarks m.tokens := by
  cases m with
  | modifier word => exact .modifier formed.1 formed.2 .nil
  | annotated sign path arguments =>
    obtain ⟨kind, isPath, plain⟩ := formed
    have alone := IsMarks.annotated kind isPath (Arguments.isArguments_tokens? plain) .nil
    rwa [List.append_nil] at alone

theorem isMarks_flatMap (formed : ∀ m ∈ ms, m.IsFormed Arguments.IsPlain) :
    IsMarks (ms.flatMap tokens) := by
  induction ms with
  | nil => exact .nil
  | cons m ms ih =>
    rw [List.forall_mem_cons] at formed
    rw [List.flatMap_cons]
    exact formed.1.isMarks.append (ih formed.2)

theorem modifiersOf_flatMap (formed : ∀ m ∈ ms, m.IsFormed Arguments.IsPlain) :
    Header.modifiersOf (ms.flatMap tokens) = ms.filterMap word? := by
  induction ms with
  | nil => rfl
  | cons m ms ih =>
    rw [List.forall_mem_cons] at formed
    have first : Header.modifiersOf m.tokens = m.word?.toList := by
      cases m with
      | modifier word => exact Header.modifiersOf_modifier formed.1.1 formed.1.2
      | annotated sign path arguments =>
        obtain ⟨kind, isPath, plain⟩ := formed.1
        have none := @Header.modifiersOf_annotated sign path _ [] kind isPath
          (Arguments.isArguments_tokens? plain)
        rwa [List.append_nil] at none
    rw [List.flatMap_cons, Header.modifiersOf_append formed.1.isMarks, first, ih formed.2,
      List.filterMap_cons]
    cases m.word? <;> rfl

end Mark

/-! ## Types -/

theorem TypeKind.word_ofWord {word : Text} (mem : word ∈ typeKeywords) :
    (TypeKind.ofWord word).word = word := by
  have all : ∀ word ∈ typeKeywords, (TypeKind.ofWord word).word = word := by decide
  exact all word mem

/-- The declaration of a type: modifiers and annotations, the keyword, behind an at sign if it
declares an annotation, the name, what is left of the header, and the body in braces. -/
structure TypeForm where
  marks : List Mark
  sign : Option Token
  keyword : Token
  name : Token
  tail : List Token
  opening : Token
  body : List Token
  closing : Token
  deriving DecidableEq

namespace TypeForm

/-- The declaration with the tokens of its marks in a row. -/
def flat (d : TypeForm) : TypeSyntax where
  marks := d.marks.flatMap Mark.tokens
  sign := d.sign.toList
  keyword := d.keyword
  name := d.name
  tail := d.tail
  opening := d.opening
  body := d.body
  closing := d.closing

def tokens (d : TypeForm) : List Token :=
  d.flat.tokens

@[mk_iff] structure IsFormed (d : TypeForm) : Prop where
  marks : ∀ m ∈ d.marks, m.IsFormed Arguments.IsPlain
  sign : ∀ t ∈ d.sign, t.kind = .atSign ∧ d.keyword.value = Text.ofString "interface"
  keyword : d.keyword.opensType none = true
  name : d.name.isIdentifier = true
  tail : ∀ t ∈ d.tail, t.opensBrace = false ∧ t.closesBrace = false ∧ t.isSemicolon = false
  opening : d.opening.opensBrace = true
  body : balances opensBrace closesBrace 0 d.body = true
  closing : d.closing.closesBrace = true

instance (d : TypeForm) : Decidable d.IsFormed :=
  decidable_of_iff _ (isFormed_iff d).symm

/-- The modifiers that are written, those in annotations left out. -/
def words (d : TypeForm) : List Text :=
  (d.marks.filterMap Mark.word?).map Token.value

/-- The first visibility that is written. -/
def visibility (d : TypeForm) : Visibility :=
  (d.words.findSome? Visibility.ofModifier?).getD .packageAccess

/-- The first modifier that sets no visibility, or else the keyword. -/
def anchorWord (d : TypeForm) : Text :=
  (d.words.find? fun word => !(Visibility.ofModifier? word).isSome).getD
    (if d.sign.isSome then "@interface" else d.keyword.value)

/-- Whether the header says what is written. -/
structure Describes (d : TypeForm) (h : Header) : Prop where
  name : h.name = d.name.value
  kind : h.kind.word = d.keyword.value
  modifiers : h.modifiers = d.words
  visibility : h.visibility = d.visibility
  anchorWord : h.anchorWord = d.anchorWord

variable {d : TypeForm} {h : Header}

theorem IsFormed.flat (formed : d.IsFormed) : d.flat.IsFormed where
  marks := Mark.isMarks_flatMap formed.marks
  sign := by
    have sign := formed.sign
    cases sign? : d.sign with
    | none => exact .inl (by rw [TypeForm.flat, sign?]; rfl)
    | some t => exact .inr ⟨t, by rw [TypeForm.flat, sign?]; rfl, (sign t sign?).1⟩
  keyword := formed.keyword
  name := formed.name
  tail := formed.tail
  opening := formed.opening
  body := formed.body
  closing := formed.closing

theorem describes_bare : d.Describes h.bare ↔ d.Describes h := by
  have anchor : h.bare.anchorWord = h.anchorWord := rfl
  constructor
  · rintro ⟨name, kind, modifiers, visibility, anchorWord⟩
    exact ⟨name, kind, modifiers, h.visibility_bare ▸ visibility, anchor ▸ anchorWord⟩
  · rintro ⟨name, kind, modifiers, visibility, anchorWord⟩
    exact ⟨name, kind, modifiers, h.visibility_bare ▸ visibility, anchorWord⟩

theorem find?_bind_ofModifier? (ts : List Token) :
    (ts.find? isVisibility).bind (fun t => Visibility.ofModifier? t.value)
      = (ts.map Token.value).findSome? Visibility.ofModifier? := by
  induction ts with
  | nil => rfl
  | cons t ts ih =>
    rw [List.map_cons, List.findSome?_cons]
    cases access : Visibility.ofModifier? t.value with
    | none => rw [List.find?_cons_of_neg (by simp [isVisibility, access]), ih]
    | some v =>
      rw [List.find?_cons_of_pos (by simp [isVisibility, access]), Option.bind_some, access]

theorem IsFormed.word_mem (formed : d.IsFormed) {t : Token}
    (mem : t ∈ d.marks.filterMap Mark.word?) : t.value ∈ Token.modifiers := by
  obtain ⟨m, inside, isWord⟩ := List.mem_filterMap.1 mem
  cases m with
  | modifier word =>
    obtain rfl := Option.some.inj isWord
    exact (formed.marks _ inside).2
  | annotated => cases isWord

theorem IsFormed.anchorWord_header (formed : d.IsFormed)
    (sign : ∀ t ∈ d.sign, t.value = Text.ofString "@") :
    d.flat.header.anchorWord = d.anchorWord := by
  have modifiers : Header.modifiersOf d.flat.marks = d.marks.filterMap Mark.word? :=
    Mark.modifiersOf_flatMap formed.marks
  have found : d.words.find? (fun word => !(Visibility.ofModifier? word).isSome)
      = ((d.marks.filterMap Mark.word?).find? fun t => !t.isVisibility).map Token.value :=
    List.find?_map ..
  have anchor : d.flat.header.anchor
      = ((d.marks.filterMap Mark.word?).find? fun t => !t.isVisibility).getD
          (d.sign.toList.head?.getD d.keyword) := by
    rw [← modifiers]
    rfl
  rw [Header.anchorWord, anchor, anchorWord, found]
  cases first : (d.marks.filterMap Mark.word?).find? fun t => !t.isVisibility with
  | some t =>
    have apart : ∀ word ∈ Token.modifiers, word ≠ Text.ofString "@" := by decide
    have other := apart t.value (formed.word_mem (List.mem_of_find?_eq_some first))
    simp [other]
  | none =>
    cases sign? : d.sign with
    | some t => simp [sign t sign?]
    | none =>
      have keyword := formed.keyword
      simp only [opensType, Bool.and_eq_true, List.contains_iff_mem] at keyword
      have apart : ∀ word ∈ typeKeywords, word ≠ Text.ofString "@" := by decide
      simp [apart _ keyword.1.2]

theorem IsFormed.describes (formed : d.IsFormed)
    (sign : ∀ t ∈ d.sign, t.value = Text.ofString "@") : d.Describes d.flat.header where
  name := rfl
  kind := by
    have keyword := formed.keyword
    simp only [opensType, Bool.and_eq_true, List.contains_iff_mem] at keyword
    exact TypeKind.word_ofWord keyword.1.2
  modifiers := congrArg (List.map Token.value) (Mark.modifiersOf_flatMap formed.marks)
  visibility := by
    have token : d.flat.header.visibilityToken
        = (d.marks.filterMap Mark.word?).find? isVisibility :=
      congrArg (List.find? isVisibility) (Mark.modifiersOf_flatMap formed.marks)
    rw [Header.visibility, token, find?_bind_ofModifier?]
    rfl
  anchorWord := formed.anchorWord_header sign

end TypeForm

/-! ## Declarations -/

/-- What stands at the top of a text. -/
inductive Declaration where
  | empty (mark : Token)
  | package (keyword : Token) (path : List Token) (mark : Token)
  | importDecl (keyword : Token) (scope : Option Token) (path : List Token)
      (wildcard : Option (Token × Token)) (mark : Token)
  | type (d : TypeForm)
  deriving DecidableEq

namespace Declaration

def tokens : Declaration → List Token
  | empty mark => [mark]
  | package keyword path mark => keyword :: (path ++ [mark])
  | importDecl keyword scope path wildcard mark =>
    keyword :: (scope.toList ++ (path ++ ((wildcard.elim [] fun w => [w.1, w.2]) ++ [mark])))
  | type d => d.tokens

def IsFormed : Declaration → Prop
  | empty mark => mark.isSemicolon = true
  | package keyword path mark =>
    keyword.isKeyword "package" = true ∧ isPath path = true ∧ mark.isSemicolon = true
  | importDecl keyword scope path wildcard mark =>
    keyword.isKeyword "import" = true ∧
    (∀ t ∈ scope, t.kind = .modifier ∧ t.value = Text.ofString "static") ∧
    isPath path = true ∧
    (∀ w ∈ wildcard, w.1.isSeparator "." = true ∧ w.2.kind = .operator ∧
      w.2.value = Text.ofString "*") ∧
    mark.isSemicolon = true
  | type d => d.IsFormed

instance (d : Declaration) : Decidable d.IsFormed :=
  match d with
  | empty _ => inferInstanceAs (Decidable (_ = _))
  | package _ _ _ => inferInstanceAs (Decidable (_ ∧ _ ∧ _))
  | importDecl _ _ _ _ _ => inferInstanceAs (Decidable (_ ∧ _ ∧ _ ∧ _ ∧ _))
  | type d => inferInstanceAs (Decidable d.IsFormed)

def package? : Declaration → Option Text
  | package _ path _ => some (path.flatMap Token.value)
  | _ => none

def import? : Declaration → Option Import
  | importDecl _ scope path wildcard _ =>
    some ⟨path.flatMap Token.value ++ (if wildcard.isSome then Text.ofString ".*" else []),
      scope.isSome⟩
  | _ => none

def type? : Declaration → Option TypeForm
  | type d => some d
  | _ => none

variable {d : Declaration}

theorem IsFormed.isPackage {keyword mark : Token} {path : List Token}
    (formed : (package keyword path mark).IsFormed) :
    Item.IsPackage (package keyword path mark).tokens :=
  ⟨keyword, path, mark, rfl, formed⟩

theorem IsFormed.isImport {keyword mark : Token} {scope : Option Token} {path : List Token}
    {wildcard : Option (Token × Token)}
    (formed : (importDecl keyword scope path wildcard mark).IsFormed) :
    Item.IsImport (importDecl keyword scope path wildcard mark).tokens := by
  obtain ⟨isKeyword, isStatic, isPath, isWildcard, isMark⟩ := formed
  refine ⟨keyword, scope.toList, path, _, mark, rfl, isKeyword, ?_, isPath, ?_, isMark⟩
  · cases scope with
    | none => exact .inl rfl
    | some t => exact .inr ⟨t, rfl, isStatic t rfl⟩
  · cases wildcard with
    | none => exact .inl rfl
    | some w => exact .inr ⟨w.1, w.2, rfl, isWildcard w rfl⟩

theorem IsFormed.isClosed (formed : d.IsFormed) : Item.IsClosed d.tokens := by
  cases d with
  | empty mark => exact @Item.isClosed_of_isSemicolon [] mark (by simp) formed
  | package => exact Item.IsDeclaration.isClosed (.inl formed.isPackage)
  | importDecl => exact Item.IsDeclaration.isClosed (.inr (.inl formed.isImport))
  | type d => exact TypeForm.IsFormed.flat formed |>.isClosed

theorem role_empty {mark : Token} (isMark : mark.isSemicolon = true) :
    Role.ofItem [mark] = .stray := by
  have kind := (isSeparator_iff.1 isMark).1
  have noWord (word : Text) : mark.isKeyword word = false := by
    rw [isKeyword, kind]
    rfl
  have noType : Header.ofItem? [mark] = none := by
    apply Item.ofItem?_eq_none
    rw [List.forall_mem_singleton]
    exact Item.opensType_of_not_isKeyword (by rw [kind]; rfl)
  rw [Role.ofItem, noWord, noWord, noType]
  rfl

theorem joinValues_package {keyword mark : Token} {path : List Token}
    (formed : (package keyword path mark).IsFormed) (lexed : ∀ t ∈ path, t.IsLexed) :
    Item.joinValues (path ++ [mark]) = path.flatMap Token.value := by
  obtain ⟨-, isPath, isMark⟩ := formed
  obtain ⟨-, -, rest, -⟩ := Item.fits_wildcard isMark (.inl rfl) []
  rw [Item.joinValues_path isPath lexed]
  rw [List.nil_append] at rest
  rw [rest, List.flatMap_nil, List.append_nil]

theorem ofItem_importDecl {keyword mark : Token} {scope : Option Token} {path : List Token}
    {wildcard : Option (Token × Token)}
    (formed : (importDecl keyword scope path wildcard mark).IsFormed)
    (lexed : ∀ t ∈ path, t.IsLexed) :
    some (Import.ofItem (importDecl keyword scope path wildcard mark).tokens)
      = (importDecl keyword scope path wildcard mark).import? := by
  obtain ⟨-, isStatic, isPath, isWildcard, isMark⟩ := formed
  have star : Item.joinValues ((wildcard.elim [] fun w => [w.1, w.2]) ++ [mark])
      = if wildcard.isSome then Text.ofString ".*" else [] := by
    cases wildcard with
    | none => exact (Item.fits_wildcard isMark (.inl rfl) []).2.2.1
    | some w =>
      have is := isWildcard w rfl
      have dot : w.1.value = Text.ofString "." := by
        simpa [isSeparator] using (Bool.and_eq_true_iff.1 is.1).2
      refine (Item.fits_wildcard isMark (.inr ⟨w.1, w.2, rfl, is⟩) []).2.2.1.trans ?_
      rw [List.flatMap_cons, List.flatMap_singleton, dot, is.2.2]
      rfl
  have name := Item.joinValues_path isPath lexed ((wildcard.elim [] fun w => [w.1, w.2]) ++ [mark])
  rw [star] at name
  cases scope with
  | some t =>
    obtain ⟨kind, value⟩ := isStatic t rfl
    simp [tokens, import?, Import.ofItem, isModifier, kind, value, name]
  | none =>
    obtain ⟨first, rest, rfl⟩ : ∃ first rest, path = first :: rest := by
      apply List.exists_cons_of_ne_nil
      rintro rfl
      simp [Token.isPath] at isPath
    have isName := (isPlainName_of_isPath isPath first (by simp)).isModifier
    rw [List.cons_append] at name
    simp [tokens, import?, Import.ofItem, isName, name]

theorem IsFormed.role (formed : d.IsFormed) (lexed : ∀ t ∈ d.tokens, t.IsLexed) :
    (Role.ofItem d.tokens).package? = d.package? ∧ (Role.ofItem d.tokens).import? = d.import? ∧
      (Role.ofItem d.tokens).header? = d.type?.map fun form => form.flat.header := by
  cases d with
  | empty mark =>
    rw [tokens, role_empty formed]
    exact ⟨rfl, rfl, rfl⟩
  | package keyword path mark =>
    rw [formed.isPackage.role]
    refine ⟨congrArg some (joinValues_package formed fun t mem => ?_), rfl, rfl⟩
    exact lexed t (by simp [tokens, mem])
  | importDecl keyword scope path wildcard mark =>
    rw [formed.isImport.role]
    refine ⟨rfl, ofItem_importDecl formed fun t mem => ?_, rfl⟩
    exact lexed t (by simp [tokens, mem])
  | type d =>
    rw [tokens, TypeForm.tokens, (TypeForm.IsFormed.flat formed).role]
    exact ⟨rfl, rfl, rfl⟩

/-- Declarations are the items of the text that they make up. -/
theorem items_eq {s : Text} {ds : List Declaration}
    (read : tokenize s.unifyBreaks = .ok (ds.flatMap tokens)) (formed : ∀ d ∈ ds, d.IsFormed) :
    s.items = ds.map tokens := by
  have closed : ∀ item ∈ ds.map tokens, Item.IsClosed item := by
    rw [List.forall_mem_map]
    exact fun d mem => (formed d mem).isClosed
  rw [items_of_tokenize read, List.flatMap_def, Item.group_of_flatten closed]

end Declaration

/-- A text that is made of declarations is parsed as what they say. -/
theorem CompilationUnit.declarations_of_parse {s : Text} {u : CompilationUnit}
    {ds : List Declaration} (parsed : parse s = .ok u)
    (read : tokenize s.unifyBreaks = .ok (ds.flatMap Declaration.tokens))
    (formed : ∀ d ∈ ds, d.IsFormed) :
    u.package = (ds.filterMap Declaration.package?).getLast? ∧
      u.imports = ds.filterMap Declaration.import? ∧
      List.Forall₂ (fun d t => d.Describes t.header) (ds.filterMap Declaration.type?) u.types := by
  have inside (d : Declaration) (mem : d ∈ ds) : ∀ t ∈ d.tokens,
      t ∈ ds.flatMap Declaration.tokens := fun t isToken => List.mem_flatMap_of_mem mem isToken
  have role (d : Declaration) (mem : d ∈ ds) := (formed d mem).role fun t isToken =>
    isLexed_of_tokenize read t (inside d mem t isToken)
  obtain ⟨package, imports, headers⟩ := outlines_of_parse parsed
  rw [Declaration.items_eq read formed, List.filterMap_map] at package imports headers
  refine ⟨?_, ?_, ?_⟩
  · rw [package]
    exact congrArg List.getLast? (List.filterMap_congr fun d mem => (role d mem).1)
  · rw [imports]
    exact List.filterMap_congr fun d mem => (role d mem).2.1
  · have types : ds.filterMap (Item.header? ∘ Declaration.tokens)
        = (ds.filterMap Declaration.type?).map fun form => form.flat.header := by
      rw [List.map_filterMap]
      exact List.filterMap_congr fun d mem => (role d mem).2.2
    rw [types, List.map_map, ← List.forall₂_eq_eq_eq, List.forall₂_map_left_iff,
      List.forall₂_map_right_iff] at headers
    have describes : ∀ d ∈ ds.filterMap Declaration.type?, d.Describes d.flat.header := by
      intro d mem
      obtain ⟨_ | _ | _ | d, isType, ⟨⟩⟩ := List.mem_filterMap.1 mem
      refine (formed _ isType).describes fun t isSign => ?_
      refine value_of_atSign read t (inside _ isType t ?_) ((formed _ isType).sign t isSign).1
      simp [Declaration.tokens, TypeForm.tokens, TypeSyntax.tokens, TypeForm.flat,
        Option.mem_def.1 isSign]
    refine (List.forall₂_and_left _ _ |>.2 ⟨describes, headers.flip⟩).imp ?_
    rintro d t ⟨describes, same⟩
    rw [← TypeForm.describes_bare, same]
    exact TypeForm.describes_bare.2 describes

/-- A package, a static import of all that a type holds, an empty declaration, and a type whose
annotation has a class literal in braces and whose modifiers name two visibilities. -/
def medley : Text :=
  "package p.q;\nimport static a.B.*;;\n"
    ++ "@A(v = \x7bX.class\x7d) protected final public @interface N \x7b\x7d\n"

def medleyArguments : Arguments where
  opening := ⟨.separator, "(", ⟨3, 3⟩⟩
  inner := [⟨.identifier, "v", ⟨3, 4⟩⟩, ⟨.operator, "=", ⟨3, 6⟩⟩, ⟨.separator, "\x7b", ⟨3, 8⟩⟩,
    ⟨.identifier, "X", ⟨3, 9⟩⟩, ⟨.separator, ".", ⟨3, 10⟩⟩, ⟨.keyword, "class", ⟨3, 11⟩⟩,
    ⟨.separator, "\x7d", ⟨3, 16⟩⟩]
  closing := ⟨.separator, ")", ⟨3, 17⟩⟩

def medleyType : TypeForm where
  marks := [.annotated ⟨.atSign, "@", ⟨3, 1⟩⟩ [⟨.identifier, "A", ⟨3, 2⟩⟩] (some medleyArguments),
    .modifier ⟨.modifier, "protected", ⟨3, 19⟩⟩, .modifier ⟨.modifier, "final", ⟨3, 29⟩⟩,
    .modifier ⟨.modifier, "public", ⟨3, 35⟩⟩]
  sign := some ⟨.atSign, "@", ⟨3, 42⟩⟩
  keyword := ⟨.keyword, "interface", ⟨3, 43⟩⟩
  name := ⟨.identifier, "N", ⟨3, 53⟩⟩
  tail := []
  opening := ⟨.separator, "\x7b", ⟨3, 55⟩⟩
  body := []
  closing := ⟨.separator, "\x7d", ⟨3, 56⟩⟩

def medleyDeclarations : List Declaration :=
  [.package ⟨.keyword, "package", ⟨1, 1⟩⟩
      [⟨.identifier, "p", ⟨1, 9⟩⟩, ⟨.separator, ".", ⟨1, 10⟩⟩, ⟨.identifier, "q", ⟨1, 11⟩⟩]
      ⟨.separator, ";", ⟨1, 12⟩⟩,
    .importDecl ⟨.keyword, "import", ⟨2, 1⟩⟩ (some ⟨.modifier, "static", ⟨2, 8⟩⟩)
      [⟨.identifier, "a", ⟨2, 15⟩⟩, ⟨.separator, ".", ⟨2, 16⟩⟩, ⟨.identifier, "B", ⟨2, 17⟩⟩]
      (some (⟨.separator, ".", ⟨2, 18⟩⟩, ⟨.operator, "*", ⟨2, 19⟩⟩)) ⟨.separator, ";", ⟨2, 20⟩⟩,
    .empty ⟨.separator, ";", ⟨2, 21⟩⟩, .type medleyType]

theorem CompilationUnit.declarations_of_parse_medley : ∃ u, parse medley = .ok u ∧
    u.package = some (Text.ofString "p.q") ∧ u.imports = [⟨Text.ofString "a.B.*", true⟩] ∧
    List.Forall₂ (fun d t => d.Describes t.header) [medleyType] u.types ∧
    medleyType.visibility = .protectedAccess ∧ medleyType.anchorWord = Text.ofString "final" := by
  obtain ⟨read, parses⟩ : tokenize medley.unifyBreaks
        = .ok (medleyDeclarations.flatMap Declaration.tokens) ∧
      (parse medley).toOption.isSome := by
    rw [medley, ofString_ofList]
    decide +kernel
  have formed : ∀ d ∈ medleyDeclarations, d.IsFormed := by decide +kernel
  obtain ⟨u, parsed⟩ := exists_eq_ok parses
  obtain ⟨package, imports, types⟩ := declarations_of_parse parsed read formed
  refine ⟨u, parsed, package.trans ?_, imports.trans ?_, types, ?_, ?_⟩
  · decide
  · decide
  · decide
  · decide

end JavaUnits
