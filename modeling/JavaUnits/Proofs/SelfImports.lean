import JavaUnits.Proofs.Contents

/-!
Imports that a merge drops. The names that the sources declare are collected before the sources are
read again for their bodies. The content of the merge declares the same names, so that the imports
that are left are those which do not reach for a type of the content.
-/

namespace JavaUnits

open CodePoint Token Scan Text CompilationUnit

/-! ## Names of tokens put together -/

/-- Whether names are collected afresh behind the token. -/
def Token.endsNames (t : Token) : Bool :=
  !isDot (some t) && !t.opensType none

/-- Whether names are collected afresh behind the tokens, if there are any. -/
def Token.EndNames (ts : List Token) : Prop :=
  ∀ t ∈ ts.getLast?, t.endsNames = true

instance (ts : List Token) : Decidable (EndNames ts) :=
  inferInstanceAs (Decidable (∀ t ∈ ts.getLast?, _))

namespace declaredNames

theorem collect_of_isDot {previous : Option Token} (noDot : isDot previous = false)
    (ts : List Token) : collect previous ts = collect none ts := by
  match ts with
  | [] => rfl
  | [_] => rfl
  | t :: name :: ts =>
    have same : t.opensType previous = t.opensType none := by
      rw [isDot] at noDot
      simp [opensType, noDot]
    rw [collect, collect, same]

theorem opensType_of_none {t : Token} (opens : t.opensType none = false)
    (previous : Option Token) : t.opensType previous = false := by
  simp only [opensType, Option.map_none, Option.getD_none, Bool.not_false, Bool.and_true] at opens
  rw [opensType, opens, Bool.false_and]

theorem collect_append {xs : List Token} (ends : EndNames xs) {previous : Option Token}
    (start : xs = [] → isDot previous = false) (ys : List Token) :
    collect previous (xs ++ ys) = collect previous xs ++ collect none ys := by
  induction xs generalizing previous with
  | nil => exact collect_of_isDot (start rfl) ys
  | cons x xs ih =>
    cases xs with
    | nil =>
      have ends : x.endsNames = true := ends x (by simp)
      simp only [endsNames, Bool.and_eq_true, Bool.not_eq_true'] at ends
      cases ys with
      | nil => rfl
      | cons y ys =>
        rw [List.singleton_append, collect, opensType_of_none ends.2, Bool.false_and,
          if_neg (by simp), collect_of_isDot ends.1]
        rfl
    | cons x' xs =>
      have later : collect (some x) (x' :: xs ++ ys)
          = collect (some x) (x' :: xs) ++ collect none ys :=
        ih (by rwa [EndNames, List.getLast?_cons_cons] at ends) (by simp)
      rw [List.cons_append, List.cons_append, collect, collect, ← List.cons_append, later]
      split <;> rfl

/-- Names are collected afresh from a token that is no name and opens no type behind the tokens. -/
theorem collect_append_cons {y : Token} (other : y.isIdentifier = false) {previous : Option Token}
    {xs : List Token}
    (opens : y.opensType none = false ∨ dotAfter (isDot previous) xs = false) (ys : List Token) :
    collect previous (xs ++ y :: ys) = collect previous xs ++ collect none (y :: ys) := by
  induction xs generalizing previous with
  | nil =>
    rcases opens with opens | noDot
    · cases ys with
      | nil => rfl
      | cons z ys =>
        rw [List.nil_append, collect, collect, opensType_of_none opens, opens]
        rfl
    · exact collect_of_isDot noDot _
  | cons x xs ih =>
    have later := @ih (some x) opens
    cases xs with
    | nil =>
      rw [List.singleton_append, collect, other, Bool.and_false, if_neg Bool.false_ne_true]
      exact later
    | cons x' xs =>
      rw [List.cons_append] at later
      rw [List.cons_append, List.cons_append, collect, later, collect]
      split <;> rfl

theorem collect_mark {v : Token} (mark : v.IsMark) (ys : List Token) :
    collect none (v :: ys) = collect none ys := by
  cases ys with
  | nil => rfl
  | cons y ys =>
    rw [collect, mark.word, Bool.false_and, if_neg Bool.false_ne_true]
    exact collect_of_isDot (show isDot (some v) = false from mark.isSeparator _) _

theorem endNames_flatten {xss : List (List Token)} (ends : ∀ xs ∈ xss, EndNames xs) :
    EndNames xss.flatten := by
  induction xss with
  | nil => simp [EndNames]
  | cons xs xss ih =>
    rw [List.forall_mem_cons] at ends
    intro t last
    rw [List.flatten_cons, Option.mem_def, List.getLast?_append] at last
    cases later : xss.flatten.getLast? with
    | some t' =>
      rw [later, Option.some_or, Option.some.injEq] at last
      exact ih ends.2 t (by rw [Option.mem_def, later, last])
    | none =>
      rw [later, Option.none_or] at last
      exact ends.1 t last

theorem endNames_bare {ts : List Token} (ends : EndNames ts) : EndNames (ts.map Token.bare) := by
  intro t last
  rw [Option.mem_def, List.getLast?_map] at last
  obtain ⟨t', same, rfl⟩ := Option.map_eq_some_iff.1 last
  exact ends t' same

theorem collect_flatten {xss : List (List Token)} (ends : ∀ xs ∈ xss, EndNames xs) :
    collect none xss.flatten = xss.flatMap (collect none) := by
  induction xss with
  | nil => rfl
  | cons xs xss ih =>
    rw [List.forall_mem_cons] at ends
    rw [List.flatten_cons, collect_append ends.1 (fun _ => rfl), ih ends.2, List.flatMap_cons]

end declaredNames

theorem endNames_of_isClosed {item : Item} (closed : item.IsClosed) : EndNames item := by
  obtain ⟨xs, t, rfl, mark⟩ := Item.endsWithLast_last closed
  intro t' last
  rw [List.getLast?_concat, Option.mem_def, Option.some.injEq] at last
  subst last
  have separator : t.kind = .separator := by
    rcases mark with mark | mark
    · exact (isSeparator_iff.1 mark).1
    · exact (isSeparator_iff.1 mark).1
  have noDot : isDot (some t) = false := by
    rcases mark with mark | mark
    · exact eq_of_isSeparator mark (by decide)
    · exact eq_of_isSeparator mark (by decide)
  rw [endsNames, noDot, opensType, separator]
  rfl

/-! ## Names of what an item leaves -/

theorem endsNames_of_leavesOff {t : Token} (leaves : t.leavesOff = true) : t.endsNames = true := by
  have noDot := isDot_of_leavesOff leaves
  simp only [leavesOff, Bool.or_eq_true, Bool.and_eq_true, Bool.not_eq_true', decide_eq_true_eq]
    at leaves
  rcases leaves with ⟨-, other⟩ | ⟨separator, -⟩
  · rw [endsNames, noDot, other]
    rfl
  · rw [endsNames, noDot, opensType, separator]
    rfl

namespace Header

variable {h : Header} {item : Item}

theorem names_demote (found : ofItem? item = some h) (read : item.IsRead)
    (detaches : item.Detaches) :
    declaredNames.collect none (h.demote item) = declaredNames.collect none item ∧
      (h.demote item).getLast? = item.getLast? := by
  rw [demote]
  split
  case isFalse => exact ⟨rfl, rfl⟩
  rename_i isPublic
  obtain ⟨front, visible, mid, name, rest, apart⟩ := exists_apart found read.words
  have ends : EndNames front := fun t last =>
    endsNames_of_leavesOff (apart.leavesOff detaches isPublic t last)
  have alone : EndNames visible.toList ∧ declaredNames.collect none visible.toList = [] := by
    cases shown : visible with
    | none => exact ⟨by simp [EndNames], rfl⟩
    | some v =>
      have mark := (apart.shows v shown).1
      refine ⟨?_, rfl⟩
      intro t last
      obtain rfl : v = t := by simpa using last
      rw [endsNames, mark.word, show isDot (some v) = false from mark.isSeparator _]
      rfl
  have more : mid ++ h.keyword :: name :: rest ≠ [] := by simp
  rw [apart.conceal_eq read.nodup]
  have whole := apart.item_eq
  constructor
  · rw [whole, declaredNames.collect_append ends fun _ => rfl,
      declaredNames.collect_append ends fun _ => rfl,
      declaredNames.collect_append alone.1 fun _ => rfl, alone.2, List.nil_append]
  · rw [whole, List.getLast?_append_of_ne_nil front more,
      List.getLast?_append_of_ne_nil front (List.append_ne_nil_of_right_ne_nil _ more),
      List.getLast?_append_of_ne_nil visible.toList more]

theorem names_publish (found : ofItem? item = some h) (read : item.IsRead) :
    declaredNames.collect none (h.publish item) = declaredNames.collect none item := by
  obtain ⟨front, visible, mid, name, rest, apart⟩ := exists_apart found read.words
  obtain ⟨position, same⟩ := apart.publish_eq read.nodup
  have behind {v : Token} (mark : v.IsMark) (ys : List Token) :
      declaredNames.collect none (front ++ v :: ys)
        = declaredNames.collect none front ++ declaredNames.collect none ys := by
    have other : v.isIdentifier = false := by simp [Token.isIdentifier, mark.kind]
    rw [declaredNames.collect_append_cons other (.inl mark.word), declaredNames.collect_mark mark]
  rw [same, behind (isMark_publicToken position)]
  conv => rhs; rw [apart.item_eq]
  cases shown : visible with
  | some v => exact (behind (apart.shows v shown).1 _).symm
  | none =>
    obtain ⟨first, opens⟩ := apart.anchor shown
    obtain ⟨ys, split⟩ := List.head?_eq_some_iff.1 first
    rw [Option.toList_none, List.nil_append, split]
    refine (declaredNames.collect_append_cons ?_ opens ys).symm
    obtain ⟨_, _, _, -, -, ⟨_, isType⟩, anchors, -⟩ := ofItem?_split found
    have keyword : h.keyword.kind.isKeyword = true := by
      simp only [Token.opensType, Bool.and_eq_true] at isType
      exact isType.1.1
    rw [Token.isIdentifier, decide_eq_false_iff_not]
    rcases anchors with ⟨-, kind | kind⟩ | same
    · rw [kind]; decide
    · rw [kind]; decide
    · intro kind
      rw [← same, kind] at keyword
      cases keyword

end Header

/-- Whether the item declares no type if it names the package or imports something. -/
def Item.IsQuiet (item : Item) : Prop :=
  (Role.ofItem item).isDirective = true → declaredNames.collect none item = []

instance (item : Item) : Decidable item.IsQuiet :=
  inferInstanceAs (Decidable (_ → _))

theorem names_left {item : Item} (read : item.IsRead) (detaches : item.Detaches)
    (quiet : item.IsQuiet) (ends : EndNames item) (demoted : Bool) :
    declaredNames.collect none (item.left demoted) = declaredNames.collect none item ∧
      EndNames (item.left demoted) := by
  rw [Item.left]
  cases role : Role.ofItem item with
  | type h =>
    simp only [Header.bodyItem]
    split
    · obtain ⟨names, last⟩ := Header.names_demote (Role.ofItem_eq_type role) read detaches
      rw [EndNames, last]
      exact ⟨names, ends⟩
    · exact ⟨rfl, ends⟩
  | stray => exact ⟨rfl, ends⟩
  | package => exact ⟨(quiet (by rw [role]; rfl)).symm, by simp [EndNames]⟩
  | importDecl => exact ⟨(quiet (by rw [role]; rfl)).symm, by simp [EndNames]⟩

/-! ## Sources -/

theorem Item.isClosed_or_last {ts : List Token} {item : Item} (mem : item ∈ group ts) :
    item.IsClosed ∨ (group ts).getLast? = some item := by
  obtain ⟨items, rest, -, closed, grouped⟩ := group_spec ts
  rw [grouped] at mem ⊢
  rcases List.mem_append.1 mem with mem | mem
  · exact .inl (closed item mem)
  · right
    split at mem
    · cases mem
    · rename_i more
      rw [List.mem_singleton] at mem
      rw [if_neg more, mem, List.getLast?_concat]

/-- Whether both readings of the source find the same types: its line breaks make no difference for
its names, no directive declares a type, and what ends the source goes on in no name. -/
structure Text.DeclaresAlike (s : Text) : Prop where
  names : declaredNames s = declaredNames s.unifyBreaks
  quiet : ∀ item ∈ s.items, item.IsQuiet
  ends : ∀ item ∈ s.items.getLast?, EndNames item

/-- Names are the same for all line breaks that belong together. -/
theorem declaredNames_unifyBreaks {s : Text} (pairs : ofChar '\r' ∉ s.mergeBreaks) :
    declaredNames s = declaredNames s.unifyBreaks := by
  have same : s.unifyBreaks = s.mergeBreaks := by
    rw [unifyBreaks]
    conv => rhs; rw [← List.map_id s.mergeBreaks]
    apply List.map_congr_left
    intro c mem
    have other : c ≠ ofChar '\r' := by
      rintro rfl
      exact pairs mem
    rw [if_neg other, id]
  rw [same, declaredNames, declaredNames, mergeBreaks_of_notMem pairs]

theorem declaredNames_of_reads {s : Text} {ts : List Token} (reads : Reads s ts)
    (none : ofChar '\r' ∉ s) : declaredNames s = .ok (declaredNames.collect .none ts) := by
  obtain ⟨tokens, ok, rfl⟩ := tokenize_of_reads reads
  rw [declaredNames, mergeBreaks_of_notMem none, ok, ok_bind, pure_eq_ok]
  exact congrArg _ (collect_bare .none tokens).symm

section

variable {s : Text} {u : CompilationUnit}

theorem Text.DeclaresAlike.endNames (alike : s.DeclaresAlike) :
    ∀ item ∈ s.items, EndNames item := by
  intro item mem
  rcases Item.isClosed_or_last mem with closed | last
  · exact endNames_of_isClosed closed
  · exact alike.ends item last

theorem Text.DeclaresAlike.names_eq (alike : s.DeclaresAlike) (legible : s.IsLegible)
    (parsed : parse s = .ok u) :
    declaredNames s = .ok (s.items.flatMap (declaredNames.collect none)) := by
  obtain ⟨items, tail, scanned, -, -, same⟩ := legible.exists_scanned parsed
  have code := code_of_parse parsed
  rw [alike.names, ← code]
  have reads : Reads u.code (s.items.flatten.map Token.bare) := by
    rw [same, flatten_itemsFrom, bare_tokensFrom]
    exact reads_of_run scanned.plain (run_eq scanned)
  rw [declaredNames_of_reads reads (code ▸ s.notMem_unifyBreaks),
    show (none : Option Token) = none.map Token.bare from rfl, collect_bare,
    declaredNames.collect_flatten alike.endNames]
  rfl

theorem Text.DeclaresAlike.names_text (alike : s.DeclaresAlike) (legible : s.IsLegible)
    (parsed : parse s = .ok u) (demoted : Bool) (path : Text) (defined : List Text) :
    declaredNames.collect none (read ((Extract.ofUnit path defined u).text demoted))
        = s.items.flatMap (declaredNames.collect none) ∧
      EndNames (read ((Extract.ofUnit path defined u).text demoted)) := by
  have reads := legible.reads_text parsed demoted path defined
  have names := fun item mem =>
    names_left (legible.isRead parsed item mem) (legible.detaches item mem) (alike.quiet item mem)
      (alike.endNames item mem) demoted
  have ends : ∀ ts ∈ s.items.map (Item.left demoted), EndNames ts := by
    intro ts mem
    obtain ⟨item, inside, rfl⟩ := List.mem_map.1 mem
    exact (names item inside).2
  rw [reads.read_eq, ← List.map_flatMap, List.flatMap_def,
    show (none : Option Token) = none.map Token.bare from rfl, collect_bare,
    declaredNames.collect_flatten ends, List.flatMap_map]
  refine ⟨?_, declaredNames.endNames_bare (declaredNames.endNames_flatten ends)⟩
  rw [List.flatMap_def, List.flatMap_def]
  congr 1
  exact List.map_congr_left fun item mem => (names item mem).1

end

/-! ## Merges -/

theorem Import.isSelf_congr {names defined : List Text} (same : ∀ n, n ∈ names ↔ n ∈ defined)
    (i : Import) : i.isSelf names = i.isSelf defined := by
  have contains : names.contains = defined.contains := by
    funext n
    rw [Bool.eq_iff_iff, List.contains_iff_mem, List.contains_iff_mem]
    exact same n
  rw [isSelf, isSelf, contains]

namespace Merge

section

variable {sources : Files} {defined : List Text} {es : List Extract} {c : Choice}

/-- The content of a merge declares the names that the sources declare. -/
theorem Extracted.declaredNames_content (extracted : Extracted sources defined es)
    (legible : ∀ file ∈ sources, file.2.IsLegible) (alike : ∀ file ∈ sources, file.2.DeclaresAlike)
    (found : definedNames sources = .ok defined) (all : c.all = es) :
    ∃ names, declaredNames (ofChoice es c).content = .ok names ∧ ∀ n, n ∈ names ↔ n ∈ defined := by
  have reads := extracted.reads_content legible all
  refine ⟨_, declaredNames_of_reads reads (extracted.notMem_content legible all), fun n => ?_⟩
  -- Imports declare nothing.
  have imports : ∀ ts ∈ (ofChoice es c).imports.map fun line => read (line ++ [ofChar '\n']),
      EndNames ts ∧ declaredNames.collect none ts = [] := by
    intro ts mem
    obtain ⟨line, inside, rfl⟩ := List.mem_map.1 mem
    obtain ⟨e, here, i, imported, rfl⟩ := mem_imports.1 inside
    obtain ⟨file, isFile, item, isItem, declared, -, line⟩ :=
      extracted.exists_item legible here imported
    rw [line.read_eq, show (none : Option Token) = none.map Token.bare from rfl, collect_bare]
    refine ⟨declaredNames.endNames_bare ((alike file isFile).endNames item isItem), ?_⟩
    exact (alike file isFile).quiet item isItem (by
      rw [(Item.import?_eq_some declared).1]
      rfl)
  -- What a file leaves declares what its source declares.
  have bodies : ∀ file ∈ sources, ∀ e : Extract,
      (∃ u, parse file.2 = .ok u ∧ e = .ofUnit file.1 defined u) →
      ∀ demoted, EndNames (read (e.text demoted)) ∧
        declaredNames file.2 = .ok (declaredNames.collect none (read (e.text demoted))) := by
    rintro file isFile e ⟨u, parsed, rfl⟩ demoted
    obtain ⟨names, ends⟩ :=
      (alike file isFile).names_text (legible file isFile) parsed demoted file.1 defined
    rw [names]
    exact ⟨ends, (alike file isFile).names_eq (legible file isFile) parsed⟩
  have others : ∀ ts ∈ c.others.map fun e => read (e.text true), EndNames ts := by
    intro ts mem
    obtain ⟨e, inside, rfl⟩ := List.mem_map.1 mem
    obtain ⟨file, isFile, taken⟩ :=
      exists_left_of_mem extracted (all ▸ Choice.mem_all.2 (.inl inside))
    exact (bodies file isFile e taken true).1
  have collected : declaredNames.collect none
      (((ofChoice es c).imports.flatMap fun line => read (line ++ [ofChar '\n']))
        ++ (c.others.flatMap fun e => read (e.text true)) ++ read (c.chosen.text false))
      = (c.others.flatMap fun e => declaredNames.collect none (read (e.text true)))
        ++ declaredNames.collect none (read (c.chosen.text false)) := by
    rw [List.append_assoc, List.flatMap_def, List.flatMap_def,
      declaredNames.collect_append (declaredNames.endNames_flatten fun ts mem => (imports ts mem).1)
        fun _ => rfl,
      declaredNames.collect_append (declaredNames.endNames_flatten others) fun _ => rfl,
      declaredNames.collect_flatten fun ts mem => (imports ts mem).1,
      declaredNames.collect_flatten others,
      List.flatMap_eq_nil_iff.2 fun ts mem => (imports ts mem).2, List.nil_append,
      List.flatMap_map]
  obtain ⟨nss, declared, rfl⟩ := definedNames_eq_ok found
  rw [collected, List.mem_append, List.mem_flatMap, List.mem_flatten]
  constructor
  · have fromExtract (e : Extract) (mem : e ∈ c.all) (demoted : Bool)
        (inside : n ∈ declaredNames.collect none (read (e.text demoted))) : ∃ ns ∈ nss, n ∈ ns := by
      obtain ⟨file, isFile, taken⟩ := exists_left_of_mem extracted (all ▸ mem)
      obtain ⟨ns, isNames, ok⟩ := exists_right_of_mem declared isFile
      rw [(bodies file isFile e taken demoted).2, Except.ok.injEq] at ok
      exact ⟨ns, isNames, ok ▸ inside⟩
    rintro (⟨e, mem, inside⟩ | inside)
    · exact fromExtract e (Choice.mem_all.2 (.inl mem)) true inside
    · exact fromExtract c.chosen (Choice.mem_all.2 (.inr rfl)) false inside
  · rintro ⟨ns, isNames, inside⟩
    obtain ⟨file, isFile, ok⟩ := exists_left_of_mem declared isNames
    obtain ⟨e, mem, taken⟩ := exists_right_of_mem extracted isFile
    have names (demoted : Bool) : n ∈ declaredNames.collect none (read (e.text demoted)) := by
      have same := (bodies file isFile e taken demoted).2
      rw [ok, Except.ok.injEq] at same
      exact same ▸ inside
    rcases Choice.mem_all.1 (all ▸ mem) with mem | rfl
    · exact .inl ⟨e, mem, names true⟩
    · exact .inr (names false)

end

end Merge

/-- The imports that a merge writes are those that reach for no type of its content, if its sources
are legible and both readings of them find the same types. -/
theorem mem_imports_iff {sources : Files} {asked : Option Text} {configured : Text} {r : Merged}
    (merged : merge sources asked configured = .ok r)
    (legible : ∀ file ∈ sources, file.2.IsLegible)
    (alike : ∀ file ∈ sources, file.2.DeclaresAlike) :
    ∃ names, declaredNames r.content = .ok names ∧
      ∀ file ∈ sources, ∀ u, parse file.2 = .ok u → ∀ i ∈ u.imports,
        (i.text ∈ r.imports ↔ i.isSelf names = false) := by
  obtain ⟨p, defined, es, c, -, found, extracted, suits, rfl⟩ := merge_eq_ok merged
  obtain ⟨names, ok, same⟩ := extracted.declaredNames_content legible alike found suits.all
  refine ⟨names, ok, fun file isFile u parsed i imported => ?_⟩
  rw [Import.isSelf_congr same, Merge.mem_imports]
  constructor
  · rintro ⟨e, mem, i', imported', text⟩
    obtain ⟨-, -, item', -, found', other, reads'⟩ := extracted.exists_item legible mem imported'
    -- Imports that are written alike are the same.
    rw [(legible file isFile).imports_eq parsed] at imported
    obtain ⟨item, isItem, found⟩ := List.mem_filterMap.1 imported
    have reads := (legible file isFile).reads_line parsed isItem found
    rw [text] at reads'
    have bare := reads'.unique reads
    have here := (Item.import?_eq_some found).2
    have there := (Item.import?_eq_some found').2
    rw [← Import.ofItem_bare] at here there
    rw [here, ← bare, ← there]
    exact other
  · intro other
    obtain ⟨e, mem, u', parsed', rfl⟩ := exists_right_of_mem extracted isFile
    obtain rfl : u = u' := by
      rw [parsed] at parsed'
      exact Except.ok.inj parsed'
    exact ⟨_, mem, i, List.mem_filter.2 ⟨imported, by simpa using other⟩, rfl⟩

/-- Two sources, one of which imports a type of the other. -/
def acquainted : Files :=
  [("Main.java", "import p.Helper;\r\nimport static q.Q.*;\r\npublic class Main \x7b\r\n"
      ++ "  public static void main(String[] a) \x7b\x7d\r\n\x7d\r\n"),
    ("Helper.java", "package p;\n@Deprecated public class Helper { enum Kind { A } }\n")]

theorem mem_imports_iff_acquainted : ∃ r names, merge acquainted none "last" = .ok r ∧
    declaredNames r.content = .ok names ∧
    ∀ file ∈ acquainted, ∀ u, parse file.2 = .ok u → ∀ i ∈ u.imports,
      (i.text ∈ r.imports ↔ i.isSelf names = false) := by
  have checked : ∀ file ∈ acquainted, file.2.unifyBreaks.IsPlain ∧
      (∀ p ∈ (Scan.run file.2.unifyBreaks).1, ofChar '\n' ∉ p.lexeme) ∧
      (∀ item ∈ file.2.items, item.Returns ∧ item.Detaches ∧ item.IsQuiet) ∧
      ofChar '\r' ∉ file.2.mergeBreaks ∧ ∀ item ∈ file.2.items.getLast?, EndNames item := by
    rw [acquainted, ofString_ofList, ofString_ofList, ofString_ofList, ofString_ofList,
      ofString_ofList]
    decide +kernel
  obtain ⟨r, merged⟩ : ∃ r, merge acquainted none "last" = .ok r := by
    apply exists_eq_ok
    rw [acquainted, ofString_ofList, ofString_ofList, ofString_ofList, ofString_ofList,
      ofString_ofList]
    decide +kernel
  have legible : ∀ file ∈ acquainted, file.2.IsLegible := by
    intro file mem
    obtain ⟨plain, solid, items, -⟩ := checked file mem
    exact ⟨⟨plain, placed_run solid⟩, fun item inside => (items item inside).1,
      fun item inside => (items item inside).2.1⟩
  have alike : ∀ file ∈ acquainted, file.2.DeclaresAlike := by
    intro file mem
    obtain ⟨-, -, items, pairs, ends⟩ := checked file mem
    exact ⟨declaredNames_unifyBreaks pairs, fun item inside => (items item inside).2.2, ends⟩
  obtain ⟨names, declared, same⟩ := mem_imports_iff merged legible alike
  exact ⟨r, names, merged, declared, same⟩

/-- A source with a carriage return at the end of a comment. -/
def returning : Text :=
  "import p.Helper;\npublic class Main { public static void main(String[] a) {} }\n"
    ++ "// helper\rclass Helper {}\n"

/-- A comment that a carriage return ends for one reading of a source goes on for the other, which
misses the type behind it. -/
theorem mem_imports_returning : ∃ r u names, merge [("Main.java", returning)] none "last" = .ok r ∧
    parse returning = .ok u ∧ declaredNames r.content = .ok names ∧
    ∃ i ∈ u.imports, i.text ∈ r.imports ∧ i.isSelf names = true := by
  have checked : ∃ r ∈ (merge [("Main.java", returning)] none "last").toOption,
      ∃ u ∈ (parse returning).toOption, ∃ names ∈ (declaredNames r.content).toOption,
        ∃ i ∈ u.imports, i.text ∈ r.imports ∧ i.isSelf names = true := by
    rw [returning, ofString_ofList, ofString_ofList]
    decide +kernel
  obtain ⟨r, merged, u, parsed, names, declared, rest⟩ := checked
  exact ⟨r, u, names, toOption_eq_some.1 merged, toOption_eq_some.1 parsed,
    toOption_eq_some.1 declared, rest⟩

end JavaUnits
