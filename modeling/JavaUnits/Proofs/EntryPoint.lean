import JavaUnits.Proofs.Outcome
import JavaUnits.Proofs.Outlines

/-!
The entry point of a text that is split and merged again. Split makes every type public, so that the
merge has a candidate in each file whose type declares a main method, whatever its visibility was.
-/

namespace JavaUnits

open CodePoint Token Scan Text CompilationUnit

/-! ## Declarations among items -/

namespace Declared

variable {items : List Item} {d : Declared}

theorem mem_straysOf {item : Item} (mem : item ∈ straysOf items) :
    item ∈ items ∧ Role.ofItem item = .stray := by
  induction items with
  | nil => cases mem
  | cons first items ih =>
    rw [straysOf] at mem
    split at mem
    · cases mem
    · rename_i role
      rcases List.mem_cons.1 mem with rfl | mem
      · exact ⟨List.mem_cons_self, role⟩
      · exact ⟨List.mem_cons_of_mem _ (ih mem).1, (ih mem).2⟩
    · exact ⟨List.mem_cons_of_mem _ (ih mem).1, (ih mem).2⟩

theorem mem_ofItems (mem : d ∈ ofItems items) :
    d.item ∈ items ∧ Role.ofItem d.item = .type d.header ∧
      ∀ item ∈ d.strays, item ∈ items ∧ Role.ofItem item = .stray := by
  induction items with
  | nil => cases mem
  | cons first items ih =>
    have later (mem : d ∈ ofItems items) : d.item ∈ first :: items ∧
        Role.ofItem d.item = .type d.header ∧
        ∀ item ∈ d.strays, item ∈ first :: items ∧ Role.ofItem item = .stray := by
      obtain ⟨inside, role, strays⟩ := ih mem
      exact ⟨List.mem_cons_of_mem _ inside, role, fun item mem =>
        ⟨List.mem_cons_of_mem _ (strays item mem).1, (strays item mem).2⟩⟩
    rw [ofItems] at mem
    split at mem
    · rename_i h role
      rcases List.mem_cons.1 mem with rfl | mem
      · exact ⟨List.mem_cons_self, role, fun item mem =>
          ⟨List.mem_cons_of_mem _ (mem_straysOf mem).1, (mem_straysOf mem).2⟩⟩
      · exact later mem
    · exact later mem

theorem map_header_ofItems (items : List Item) :
    (ofItems items).map header = items.filterMap Item.header? := by
  induction items with
  | nil => rfl
  | cons item items ih =>
    rw [ofItems, List.filterMap_cons, Item.header?, ← ih]
    cases Role.ofItem item <;> rfl

end Declared

/-- The item with the header of its type, if any, made public. -/
def Item.published (item : Item) : Item :=
  match item.header? with
  | some h => h.publish item
  | none => item

namespace Header

theorem mem_publish {h : Header} {item : Item} {t : Token} (mem : t ∈ h.publish item) :
    t ∈ item ∨ ∃ position, t = publicToken position := by
  induction item with
  | nil => exact .inl mem
  | cons t' ts ih =>
    have later (mem : t ∈ ts) : t ∈ t' :: ts := List.mem_cons_of_mem _ mem
    rw [publish] at mem
    split at mem
    · rcases List.mem_cons.1 mem with rfl | mem
      · exact .inr ⟨_, rfl⟩
      · exact .inl (later mem)
    split at mem
    · rcases List.mem_cons.1 mem with rfl | mem
      · exact .inr ⟨_, rfl⟩
      · exact .inl mem
    · rcases List.mem_cons.1 mem with rfl | mem
      · exact .inl List.mem_cons_self
      · exact (ih mem).imp later id

theorem ofItem_publish {h h' : Header} {item : Item} (role : Role.ofItem item = .type h)
    (found : ofItem? (h.publish item) = some h') : Role.ofItem (h.publish item) = .type h' := by
  cases item with
  | nil => cases role
  | cons t ts =>
    have quiet : t.isKeyword "package" = false ∧ t.isKeyword "import" = false := by
      rw [Role.ofItem] at role
      split at role
      · cases role
      split at role
      · cases role
      · rename_i other
        exact ⟨Bool.eq_false_iff.2 ‹_›, Bool.eq_false_iff.2 other⟩
    have head (t : Token) (ts : List Token)
        (quiet : t.isKeyword "package" = false ∧ t.isKeyword "import" = false)
        (found : ofItem? (t :: ts) = some h') : Role.ofItem (t :: ts) = .type h' := by
      rw [Role.ofItem, quiet.1, quiet.2, found]
      rfl
    rw [publish] at found ⊢
    split
    · rename_i here
      rw [if_pos here] at found
      exact head _ _ ⟨rfl, rfl⟩ found
    rename_i here
    rw [if_neg here] at found
    split
    · rename_i anchor
      rw [if_pos anchor] at found
      exact head _ _ ⟨rfl, rfl⟩ found
    · rename_i anchor
      rw [if_neg anchor] at found
      exact head _ _ quiet found

end Header

/-! ## Texts that are split -/

/-- Whether the files of a text can be read as its items. There are no escapes, no token goes over
several lines, all items are complete, imports are written as they were read, no type begins in a
comment, and `public` joins nothing where it is put in and lets nothing join where it goes again. -/
structure Text.IsSeparable (s : Text) (u : CompilationUnit) : Prop where
  plain : s.unifyBreaks.IsPlain
  solid : ∀ item ∈ s.items, ∀ t ∈ item, ofChar '\n' ∉ t.value
  closed : ∀ item ∈ s.items, item.IsClosed
  returns : ∀ item ∈ s.items, item.Returns
  detaches : ∀ item ∈ s.items, item.published.Detaches
  apart : u.IsApart
  loose : ∀ t ∈ u.types, u.IsLoose t

section

variable {s : Text} {u : CompilationUnit}

theorem Text.IsSeparable.isPlaced (separable : s.IsSeparable u) (parsed : parse s = .ok u) :
    s.IsPlaced :=
  isPlaced_of_solid separable.plain parsed separable.solid

theorem CompilationUnit.mem_publicText {t : TypeDecl} {c : CodePoint}
    (mem : c ∈ u.text t.span (publicEdit? t).toList) :
    c ∈ u.code ∨ c ∈ Text.ofString "public " := by
  rcases Span.mem_render mem with mem | ⟨e, edit, mem⟩
  · exact .inl mem
  right
  rw [Option.mem_toList, publicEdit?] at edit
  split at edit
  · cases edit
  split at edit
  · obtain rfl := Option.some.inj edit
    exact (show ∀ c ∈ Text.ofString "public", c ∈ Text.ofString "public " by decide) c mem
  · obtain rfl := Option.some.inj edit
    exact mem

/-- A file has nothing that the text has not, but for `public` and line breaks. -/
theorem SplitFiles.mem_fileText {t : TypeDecl} {c : CodePoint} (mem : c ∈ fileText u t) :
    c = ofChar '\n' ∨ (∃ i ∈ u.imports, c ∈ i.text) ∨ c ∈ u.code ∨ c ∈ Text.ofString "public " := by
  rw [fileText_eq] at mem
  simp only [List.mem_append, List.mem_flatMap, List.mem_singleton] at mem
  rcases mem with ⟨i, inside, mem | mem⟩ | mem | mem | mem
  · exact .inr (.inl ⟨i, inside, mem⟩)
  · exact .inl mem
  · split at mem
    · cases mem
    · exact .inl (List.mem_singleton.1 mem)
  · obtain ⟨blanks, split, -⟩ := stripRight_split (u.text t.span (publicEdit? t).toList)
    have rendered : c ∈ u.text t.span (publicEdit? t).toList := by
      rw [split]
      exact List.mem_append_left _ mem
    exact .inr (.inr (mem_publicText rendered))
  · exact .inl mem

namespace Text.IsSeparable

theorem reads_files (separable : s.IsSeparable u) (parsed : parse s = .ok u) {result : SplitFiles}
    (ran : split s = .ok result) (distinct : (u.types.map TypeDecl.name).Nodup) :
    List.Forall₂ (fun (d : Declared) file => ofChar '\r' ∉ file.2 ∧
        Reads file.2 ((((s.items.filter fun item => item.import?.isSome)
          ++ d.header.publish d.item :: d.strays).map (List.map Token.bare)).flatten))
      (Declared.ofItems s.items) result.files := by
  obtain ⟨read, ok⟩ := exists_tokenize_of_parse parsed
  have code := code_of_parse parsed
  have items := items_of_tokenize ok
  have isPlaced := separable.isPlaced parsed
  have reads := SplitFiles.reads_files separable.plain parsed (code ▸ ok) ran distinct
    (code ▸ isPlaced.placed) separable.apart separable.loose (items ▸ separable.returns)
  rw [← items] at reads
  rw [split, parsed, ok_bind] at ran
  have files : result.files
      = u.types.map fun t => (SplitFiles.fileName t, SplitFiles.fileText u t) := by
    rw [← Except.ok.inj ran, SplitFiles.files_ofUnit distinct]
  refine List.forall₂_iff_zip.2 ⟨reads.length_eq, fun {d file} mem => ⟨?_, ?_⟩⟩
  · have inside := (List.of_mem_zip mem).2
    rw [files] at inside
    obtain ⟨t, -, rfl⟩ := List.mem_map.1 inside
    intro mem
    rcases SplitFiles.mem_fileText mem with is | ⟨i, imported, mem⟩ | mem | mem
    · exact absurd is (by decide)
    · rw [isPlaced.imports_eq parsed] at imported
      obtain ⟨item, isItem, found⟩ := List.mem_filterMap.1 imported
      obtain ⟨-, rfl⟩ := Item.import?_eq_some found
      rcases Import.mem_text mem with mem | ⟨t, isToken, mem⟩
      · exact absurd mem (by decide)
      · exact s.notMem_unifyBreaks (isPlaced.mem_code parsed isItem isToken mem)
    · exact s.notMem_unifyBreaks (code ▸ mem)
    · exact absurd mem (by decide)
  · have reads := ((List.forall₂_iff_zip.1 reads).2 mem).2
    rw [← List.map_flatten, List.flatten_append, List.flatten_cons]
    exact reads

theorem closed_file (separable : s.IsSeparable u) (parsed : parse s = .ok u) {d : Declared}
    (mem : d ∈ Declared.ofItems s.items) :
    ∃ h, Role.ofItem (d.header.publish d.item) = .type h ∧ h.name = d.header.name ∧
      h.declaresMain = d.header.declaresMain ∧ h.visibility = .publicAccess ∧
      ∀ item ∈ (s.items.filter fun item => item.import?.isSome)
          ++ d.header.publish d.item :: d.strays,
        item.IsClosed ∧ (∀ t ∈ item, ofChar '\n' ∉ t.value) ∧ item.Returns ∧ item.Detaches := by
  obtain ⟨inside, role, strays⟩ := Declared.mem_ofItems mem
  have found := Role.ofItem_eq_type role
  obtain ⟨h, turned, name, -, main, isPublic, closed⟩ :=
    Header.exists_publish found ((separable.isPlaced parsed).isRead parsed d.item inside)
  have declares := Header.ofItem_publish role turned
  have published : d.item.published = d.header.publish d.item := by
    rw [Item.published, Item.header?, role]
    rfl
  refine ⟨h, declares, name, main, isPublic, ?_⟩
  have other {item : Item} (isItem : item ∈ s.items) (none : item.header? = none) :
      item.IsClosed ∧ (∀ t ∈ item, ofChar '\n' ∉ t.value) ∧ item.Returns ∧ item.Detaches := by
    have same : item.published = item := by rw [Item.published, none]
    exact ⟨separable.closed item isItem, separable.solid item isItem,
      separable.returns item isItem, same ▸ separable.detaches item isItem⟩
  intro item mem
  rcases List.mem_append.1 mem with mem | mem
  · obtain ⟨isItem, imports⟩ := List.mem_filter.1 mem
    exact other isItem (Item.header?_of_import? imports)
  rcases List.mem_cons.1 mem with rfl | mem
  · refine ⟨closed (separable.closed d.item inside), fun t isToken => ?_, ?_, ?_⟩
    · rcases Header.mem_publish isToken with mem | ⟨position, rfl⟩
      · exact separable.solid d.item inside t mem
      · exact (show ofChar '\n' ∉ Text.ofString "public" by decide)
    · simp [Item.Returns, Item.import?, declares, Role.import?]
    · exact published ▸ separable.detaches d.item inside
  · obtain ⟨isItem, isStray⟩ := strays item mem
    exact other isItem (by rw [Item.header?, isStray]; rfl)

/-- Each file can be merged, and declares its type as it was, but public. -/
theorem exists_file (separable : s.IsSeparable u) (parsed : parse s = .ok u) {d : Declared}
    (mem : d ∈ Declared.ofItems s.items) {f : Text} (noReturn : ofChar '\r' ∉ f)
    (reads : Reads f ((((s.items.filter fun item => item.import?.isSome)
      ++ d.header.publish d.item :: d.strays).map (List.map Token.bare)).flatten)) :
    f.IsWhole ∧ ∀ u', parse f = .ok u' → ∃ t, u'.types = [t] ∧ t.name = d.header.name ∧
      t.header.declaresMain = d.header.declaresMain ∧ t.isPublic = true := by
  obtain ⟨h, declares, name, main, isPublic, items⟩ := separable.closed_file parsed mem
  have strays := (Declared.mem_ofItems mem).2.2
  have closed := fun item mem => (items item mem).1
  have solid := fun item mem => (items item mem).2.1
  refine ⟨reads.isWhole noReturn closed solid (fun item mem => (items item mem).2.2.1)
    fun item mem => (items item mem).2.2.2, fun u' parsed' => ?_⟩
  obtain ⟨-, -, u'', parsed'', outlines⟩ := reads.exists_parse_items noReturn closed solid
  obtain rfl := Except.ok.inj (parsed'.symm.trans parsed'')
  have others (item : Item) (mem : item ∈ s.items.filter fun item => item.import?.isSome) :
      Item.header? item = none := Item.header?_of_import? (List.mem_filter.1 mem).2
  have strayed (item : Item) (mem : item ∈ d.strays) : Item.header? item = none := by
    rw [Item.header?, (strays item mem).2]
    rfl
  have headers := outlines.headers
  rw [List.filterMap_append, List.filterMap_cons, List.filterMap_eq_nil_iff.2 others,
    List.filterMap_eq_nil_iff.2 strayed, Item.header?, declares] at headers
  obtain ⟨t, single, same⟩ := List.map_eq_singleton_iff.1 headers
  have bare : t.header.bare.visibility = h.bare.visibility := by rw [same]
  refine ⟨t, single, ?_, ?_, ?_⟩
  · exact (congrArg Header.name same).trans name
  · exact (congrArg Header.declaresMain same).trans main
  · rw [TypeDecl.isPublic, ← Header.visibility_bare, bare, Header.visibility_bare, isPublic]
    rfl

end Text.IsSeparable

end

/-! ## The entry point -/

def Header.mains (headers : List Header) : List Text :=
  (headers.filter declaresMain).map name

/-- The candidates of a merge of the files are the types of the text that declare a main method. -/
theorem Text.IsSeparable.mainClassNames {s : Text} {u : CompilationUnit} {result : SplitFiles}
    {defined : List Text} {es : List Extract} (separable : s.IsSeparable u)
    (parsed : parse s = .ok u) (ran : split s = .ok result)
    (distinct : (u.types.map TypeDecl.name).Nodup)
    (extracted : Merge.Extracted result.files defined es) :
    es.filterMap Extract.mainClassName = Header.mains (u.types.map TypeDecl.header) := by
  have reads := separable.reads_files parsed ran distinct
  let main (file : Text × Text) : Option Text :=
    (parse file.2).toOption.bind fun u => (Extract.ofUnit file.1 defined u).mainClassName
  have ofFiles : result.files.map main = es.map Extract.mainClassName := by
    apply map_eq_map_of_forall₂ extracted
    rintro file - _ - ⟨u', parsed', rfl⟩
    simp only [main, parsed']
    rfl
  have ofDeclared : (Declared.ofItems s.items).map
      (fun d => if d.header.declaresMain then some d.header.name else none)
        = result.files.map main := by
    refine map_eq_map_of_forall₂ reads fun d mem file isFile is => ?_
    obtain ⟨-, each⟩ := separable.exists_file parsed mem is.1 is.2
    obtain ⟨e, -, u', parsed', -⟩ := exists_right_of_mem extracted isFile
    obtain ⟨t, single, name, declares, isPublic⟩ := each u' parsed'
    simp only [main, parsed', Except.toOption, Option.bind_some,
      mainClassName_of_single single isPublic, name, declares]
  rw [(separable.isPlaced parsed).headers_eq parsed, ← Declared.map_header_ofItems]
  have all := ofDeclared.trans ofFiles
  have names := congrArg (List.filterMap id) all
  rw [List.filterMap_map, List.filterMap_map, Function.id_comp, Function.id_comp] at names
  rw [← names, Header.mains, List.filter_map, List.map_map, ← List.filterMap_eq_map,
    List.filterMap_filter]
  rfl

/-- When a text is split and merged again under the policy `last`, the last of its types is chosen
that declares a main method, whether it was public or not. The others that declare one are demoted,
and the chosen one is an entry point of the content. -/
theorem entryPoint_of_split {s : Text} {u : CompilationUnit} {result : SplitFiles}
    {asked : Option Text} {configured : Text} {r : Merged} (separable : s.IsSeparable u)
    (parsed : parse s = .ok u) (ran : split s = .ok result)
    (distinct : (u.types.map TypeDecl.name).Nodup)
    (policy : Merge.policy asked configured = .ok .last)
    (merged : merge result.files asked configured = .ok r) :
    (u.types.filter fun t => t.header.declaresMain).map TypeDecl.name
        = r.demotedEntryPoints ++ [r.mainClassName] ∧
      ∃ u', parse r.content = .ok u' ∧
        ∃ t ∈ u'.types, t.name = r.mainClassName ∧ t.isEntryPoint = true := by
  obtain ⟨p, defined, es, c, policy', -, extracted, suits, rfl⟩ := merge_eq_ok merged
  obtain rfl := Except.ok.inj (policy.symm.trans policy')
  have mains := separable.mainClassNames parsed ran distinct extracted
  obtain ⟨main, isMain⟩ := Option.isSome_iff_exists.1 suits.candidate
  have none : c.after.filterMap Extract.mainClassName = [] :=
    List.filterMap_eq_nil_iff.2 fun e mem => by
      simpa [Extract.isCandidate] using suits.last (by decide) e mem
  constructor
  · have names : Header.mains (u.types.map TypeDecl.header)
        = (u.types.filter fun t => t.header.declaresMain).map TypeDecl.name := by
      rw [Header.mains, List.filter_map, List.map_map]
      rfl
    rw [← names, ← mains, ← suits.all, Merge.Choice.all, Merge.ofChoice, Merge.Choice.others]
    simp [none, isMain]
  · have reads := separable.reads_files parsed ran distinct
    have whole : ∀ file ∈ result.files, file.2.IsWhole := by
      intro file mem
      obtain ⟨d, isDeclared, is⟩ := exists_left_of_mem reads mem
      exact (separable.exists_file parsed isDeclared is.1 is.2).1
    obtain ⟨before, chosen, after, split, front, taken, back⟩ :=
      extracted.exists_split suits.all
    obtain ⟨u', lines, parsed', -, outlines⟩ :=
      extracted.parse_content whole suits.all split (List.rel_append front back) taken
    refine ⟨u', parsed', ?_⟩
    obtain ⟨u'', parsed'', isChosen⟩ := (List.forall₂_cons.1 taken).1
    have inside : chosen ∈ result.files := by simp [split]
    obtain ⟨d, isDeclared, is⟩ := exists_left_of_mem reads inside
    obtain ⟨t, single, -, -, isPublic⟩ :=
      (separable.exists_file parsed isDeclared is.1 is.2).2 u'' parsed''
    -- The chosen file's type is left as it is.
    have header : t.header.bare ∈ u'.types.map fun t => t.header.bare := by
      rw [outlines.headers]
      apply List.mem_map_of_mem
      rw [List.filterMap_append, List.filterMap_append, headers_leaves,
        ← (whole chosen inside).legible.headers_eq parsed'', single]
      simp
    obtain ⟨t', mem, same⟩ := List.mem_map.1 header
    have sameName : t'.header.bare.name = t.header.bare.name := by rw [same]
    have sameMain : t'.header.bare.declaresMain = t.header.bare.declaresMain := by rw [same]
    have visibility : t'.header.visibility = t.header.visibility := by
      rw [← Header.visibility_bare, same, Header.visibility_bare]
    rw [isChosen, mainClassName_of_single single isPublic] at isMain
    cases declares : t.header.declaresMain with
    | false => simp [declares] at isMain
    | true =>
      refine ⟨t', mem, ?_, ?_⟩
      · rw [Merge.ofChoice, isChosen, mainClassName_of_single single isPublic, declares, if_pos rfl,
          Option.getD_some]
        exact sameName
      · have main : t'.header.declaresMain = true := sameMain.trans declares
        rw [TypeDecl.isEntryPoint, main, TypeDecl.isPublic, visibility]
        exact isPublic

/-- A text with two types that declare a main method, neither of them public. -/
def understudies : Text :=
  "import a.B;\n@X class A { public static void main(String[] a) {} }\n; // c\n"
    ++ "private class D { public static void main(String[] a) {} }\npublic class F {}\n"

theorem entryPoint_of_split_understudies : ∃ u result r, parse understudies = .ok u ∧
    split understudies = .ok result ∧ merge result.files none "last" = .ok r ∧
    (u.types.filter fun t => t.header.declaresMain).map TypeDecl.name
        = r.demotedEntryPoints ++ [r.mainClassName] ∧
      ∃ u', parse r.content = .ok u' ∧
        ∃ t ∈ u'.types, t.name = r.mainClassName ∧ t.isEntryPoint = true := by
  obtain ⟨u, parsed, distinct, apart, loose⟩ : ∃ u ∈ (parse understudies).toOption,
      (u.types.map TypeDecl.name).Nodup ∧ u.IsApart ∧ ∀ t ∈ u.types, u.IsLoose t := by
    rw [understudies, ofString_ofList, ofString_ofList]
    decide +kernel
  obtain ⟨result, ran, merges⟩ : ∃ result ∈ (split understudies).toOption,
      (merge result.files none "last").toOption.isSome := by
    rw [understudies, ofString_ofList, ofString_ofList]
    decide +kernel
  obtain ⟨r, merged⟩ := exists_eq_ok merges
  obtain ⟨plain, items⟩ : understudies.unifyBreaks.IsPlain ∧
      ∀ item ∈ understudies.items, (∀ t ∈ item, ofChar '\n' ∉ t.value) ∧ item.IsClosed ∧
        item.Returns ∧ item.published.Detaches := by
    rw [understudies, ofString_ofList, ofString_ofList]
    decide +kernel
  have parsed := toOption_eq_some.1 parsed
  have ran := toOption_eq_some.1 ran
  exact ⟨u, result, r, parsed, ran, merged, entryPoint_of_split
    ⟨plain, fun item mem => (items item mem).1, fun item mem => (items item mem).2.1,
      fun item mem => (items item mem).2.2.1, fun item mem => (items item mem).2.2.2, apart,
      loose⟩ parsed ran distinct rfl merged⟩

/-- A public type that declares a main method, and one behind it that is not public. -/
def rivals : Text :=
  "public class A { public static void main(String[] a) {} }\n"
    ++ "class B { public static void main(String[] a) {} }\n"

/-- The only entry point of a text is demoted for a type that is not public. -/
theorem entryPoint_of_split_rivals : ∃ u result r, parse rivals = .ok u ∧
    split rivals = .ok result ∧ (u.types.map TypeDecl.name).Nodup ∧
    u.entryPoints.map TypeDecl.name = [Text.ofString "A"] ∧
    merge result.files none "last" = .ok r ∧ r.mainClassName = Text.ofString "B" ∧
    r.demotedEntryPoints = [Text.ofString "A"] ∧
    ∀ u', parse r.content = .ok u' → u'.entryPoints.map TypeDecl.name = [Text.ofString "B"] := by
  obtain ⟨u, parsed, distinct, only⟩ : ∃ u ∈ (parse rivals).toOption,
      (u.types.map TypeDecl.name).Nodup ∧
        u.entryPoints.map TypeDecl.name = [Text.ofString "A"] := by
    rw [rivals, ofString_ofList, ofString_ofList]
    decide +kernel
  obtain ⟨result, ran, r, merged, main, demoted, left⟩ : ∃ result ∈ (split rivals).toOption,
      ∃ r ∈ (merge result.files none "last").toOption, r.mainClassName = Text.ofString "B" ∧
        r.demotedEntryPoints = [Text.ofString "A"] ∧
        ∀ u' ∈ (parse r.content).toOption,
          u'.entryPoints.map TypeDecl.name = [Text.ofString "B"] := by
    rw [rivals, ofString_ofList, ofString_ofList]
    decide +kernel
  exact ⟨u, result, r, toOption_eq_some.1 parsed, toOption_eq_some.1 ran, distinct, only,
    toOption_eq_some.1 merged, main, demoted, fun u' parsed' =>
      left u' (toOption_eq_some.2 parsed')⟩

end JavaUnits
