import JavaUnits.Proofs.Demotion

/-!
Texts that are split, merged, and then split and merged again. The first merge writes every type so
that the second split takes it apart in the same way, and puts the type with the entry point last,
where the second merge finds it again.
-/

namespace JavaUnits

open CodePoint Token Scan Text CompilationUnit

/-! ## The types that get files -/

theorem exists_map_eq {α β : Type} {f : α → β} {p : α → Prop} {ys : List β}
    (all : ∀ y ∈ ys, ∃ x, p x ∧ f x = y) : ∃ xs : List α, xs.map f = ys ∧ ∀ x ∈ xs, p x := by
  obtain ⟨xs, made⟩ := exists_forall₂ all
  refine ⟨xs, ?_, fun x mem => ?_⟩
  · simpa using map_eq_map_of_forall₂ (g := id) made fun x _ y _ is => is.2
  · obtain ⟨y, -, is⟩ := exists_right_of_mem made mem
    exact is.1

theorem SplitFiles.exists_types (u : CompilationUnit) :
    ∃ ts : List TypeDecl, (ofUnit u).files = ts.map (file u) ∧ (∀ t ∈ ts, t ∈ u.types) ∧
      (ts.map TypeDecl.name).Nodup := by
  obtain ⟨ts, files, inside⟩ := @exists_map_eq _ _ (file u) (· ∈ u.types) (ofUnit u).files
    fun file mem => List.mem_map.1 (Files.mem_ofPairs mem)
  refine ⟨ts, files.symm, inside, List.Nodup.of_map (fun name : Text => name ++ sourceExtension) ?_⟩
  have names : (ofUnit u).files.names.Nodup := Files.nodup_names_ofPairs _
  rw [← files, Files.names, List.map_map] at names
  rw [List.map_map]
  exact names

/-! ## Types that are written and read again -/

/-- Whether a type of one text is one of another for all that a merge asks, but for its lines. -/
structure CompilationUnit.Agrees (u : CompilationUnit) (t : TypeDecl) (u' : CompilationUnit)
    (t' : TypeDecl) : Prop where
  turns : ∃ part l, Leaf.Turns u' t' part l
  name : t'.name = t.name
  main : t'.header.declaresMain = t.header.declaresMain
  names : u'.names t' = u.names t

namespace Leaf

variable {u u' : CompilationUnit} {t t' : TypeDecl} {part' : Part} {l : Leaf} {w : Written}
  {d : TypeSyntax} {breaks : Text}

theorem Renders.agrees (renders : Renders u t l w d)
    (isBreaks : breaks = [ofChar '\n'] ∨ breaks = [ofChar '\n', ofChar '\n'])
    (isPart : IsPartOf u' t' part' (l.ended breaks)) : u.Agrees t u' t' := by
  have promotes := renders.ended isBreaks
  have turns := promotes.turns isPart
  exact ⟨⟨part', l.ended breaks, turns⟩, (promotes.name_eq isPart).trans renders.name,
    (promotes.declaresMain_eq isPart).trans renders.main, turns.names_eq.trans renders.names⟩

theorem Hides.agrees (hides : Hides u t l)
    (isPart : IsPartOf u' t' part' (l.ended [ofChar '\n', ofChar '\n'])) :
    u.Agrees t u' t' ∧ u'.hiddenBody t' = u.hiddenBody t := by
  obtain ⟨w, d, renders, missing, body⟩ := hides
  have promotes := renders.ended (.inr rfl)
  have stays := (promotes.edited isPart).2
  rw [Written.hidden_of_none missing, promotes.pieces] at stays
  have sound := renders.sound
  refine ⟨renders.agrees (.inr rfl) isPart, ?_⟩
  rw [(promotes.turns isPart).hiddenBody_eq, stays, body]
  show trimBlankLines (Text.lines (stripRight (l.ended _).text)) = _
  rw [stripRight_ended sound.fits sound.ne_nil (by decide), sound.isTrimmed.trim_eq]

theorem Exposes.agrees (exposes : Exposes u t l)
    (isPart : IsPartOf u' t' part' (l.ended [ofChar '\n'])) :
    u.Agrees t u' t' ∧ u'.publicBody t' = u.publicBody t := by
  obtain ⟨w, d, renders, same, body⟩ := exposes
  have promotes := renders.ended (.inl rfl)
  have stays := (promotes.edited isPart).1
  rw [same, promotes.pieces] at stays
  have sound := renders.sound
  refine ⟨renders.agrees (.inl rfl) isPart, ?_⟩
  rw [(promotes.turns isPart).publicBody_eq, stays, body]
  show Text.lines (stripRight (l.ended _).text) = _
  rw [stripRight_ended sound.fits sound.ne_nil (by decide)]

theorem Renders.sound_ended (renders : Renders u t l w d)
    (isBreaks : breaks = [ofChar '\n'] ∨ breaks = [ofChar '\n', ofChar '\n']) :
    ((l.ended breaks).IsSound ∧ (l.ended breaks).Ends) ∧
      (l.ended breaks).text.IsPlain ∧ (l.ended breaks).text.getLast? ≠ some (ofChar '\\') := by
  refine ⟨⟨renders.sound.ended breaks, renders.closes.ends isBreaks⟩,
    renders.closes.isPlain_text renders.sound isBreaks, ?_⟩
  rw [renders.sound.text_ended, List.getLast?_append]
  rcases isBreaks with rfl | rfl <;> simp <;> decide

theorem Hides.text_eq (hides : Hides u t l) :
    u.hiddenText t ++ [ofChar '\n'] = (l.ended [ofChar '\n', ofChar '\n']).text := by
  obtain ⟨w, d, renders, -, body⟩ := hides
  rw [hiddenText, body, ofLines_lines, renders.sound.text_ended, List.append_assoc]
  rfl

theorem Exposes.text_eq (exposes : Exposes u t l) :
    u.publicText t = (l.ended [ofChar '\n']).text := by
  obtain ⟨w, d, renders, -, body⟩ := exposes
  rw [publicText, body, ofLines_lines, renders.sound.text_ended]

end Leaf

/-! ## What is merged, parsed -/

section

variable {u : CompilationUnit} {defined : List Text} {m : TypeDecl}

theorem Import.isSelf_mono {names defined : List Text} {i : Import}
    (inside : ∀ n ∈ names, n ∈ defined) (other : i.isSelf defined = false) :
    i.isSelf names = false := by
  rw [isSelf] at other ⊢
  generalize (if i.isStatic then i.ownerName? else i.simpleName?) = reach at other ⊢
  cases reach with
  | none => rfl
  | some n =>
    simp only [Option.map_some, Option.getD_some, List.contains_eq_mem, decide_eq_false_iff_not]
      at other ⊢
    exact fun mem => other (inside n mem)

theorem CompilationUnit.mem_importLines {line : Text} :
    line ∈ u.importLines defined ↔
      ∃ i, (i ∈ u.imports ∧ i.isSelf defined = false) ∧ i.text = line := by
  rw [importLines, (perm_sort _).mem_iff, List.mem_eraseDups, List.mem_map]
  simp [List.mem_filter]

theorem CompilationUnit.importLines_eq {u' : CompilationUnit} {names : List Text}
    (lines : u'.imports.map Import.text = u.importLines defined)
    (others : ∀ i ∈ u'.imports, i.isSelf names = false) :
    u'.importLines names = u.importLines defined := by
  have all : (u'.imports.filter fun i => !i.isSelf names) = u'.imports :=
    List.filter_eq_self.2 fun i mem => by rw [others i mem]; rfl
  rw [importLines, all, lines]
  apply sort_eraseDups_congr
  intro line
  rw [importLines, (perm_sort _).mem_iff, List.mem_eraseDups]

theorem CompilationUnit.mem_joined {others : List TypeDecl} {c : CodePoint}
    (mem : c ∈ u.joined (u.importLines defined) others m) :
    c = ofChar '\n' ∨ (∃ i ∈ u.imports, c ∈ i.text) ∨ c ∈ u.code ∨ c ∈ Text.ofString "public " := by
  simp only [joined, hiddenText, publicText, List.mem_append, List.mem_flatMap,
    List.mem_singleton] at mem
  rcases mem with mem | ⟨t, -, (mem | is) | is⟩ | mem | is
  · rcases mem_importPart mem with is | ⟨line, inside, mem⟩
    · exact .inl is
    · obtain ⟨i, ⟨imported, -⟩, rfl⟩ := mem_importLines.1 inside
      exact .inr (.inl ⟨i, imported, mem⟩)
  · exact .inr (.inr (.inl (mem_hiddenBody mem)))
  · exact .inl is
  · exact .inl is
  · exact .inr (.inr (mem_publicBody mem))
  · exact .inl is

theorem CompilationUnit.Separates.exists_parse_joined (separates : u.Separates)
    {others : List TypeDecl} {ls : List Leaf} {l : Leaf}
    (hides : List.Forall₂ (fun l t => l.Hides u t) ls others) (exposes : l.Exposes u m) :
    ∃ u' ts m', parse (u.joined (u.importLines defined) others m) = .ok u' ∧
      u'.imports.map Import.text = u.importLines defined ∧
      (∀ i ∈ u'.imports, i ∈ u.imports ∧ i.isSelf defined = false) ∧ u'.types = ts ++ [m'] ∧
      List.Forall₂ (fun t' t => u.Agrees t u' t' ∧ u'.hiddenBody t' = u.hiddenBody t) ts others ∧
      u.Agrees m u' m' ∧ u'.publicBody m' = u.publicBody m := by
  obtain ⟨imports, texts, kept⟩ := @exists_map_eq _ _ Import.text
    (fun i => i ∈ u.imports ∧ i.isSelf defined = false) (u.importLines defined)
    fun line mem => mem_importLines.1 mem
  obtain ⟨items, all, same⟩ :=
    Import.exists_importLines fun i mem => separates.writable i (kept i mem).1
  rw [texts] at all
  have written := map_eq_map_of_forall₂ hides fun l _ t _ is => (is.text_eq).symm
  have whole : u.joined (u.importLines defined) others m = sheet (u.importLines defined)
      (ls.map (Leaf.ended [ofChar '\n', ofChar '\n']) ++ [l.ended [ofChar '\n']]) := by
    rw [joined, sheet, List.flatMap_append, List.flatMap_map, List.flatMap_singleton,
      exposes.text_eq, List.flatMap, List.flatMap, written]
  have noReturn : ofChar '\r' ∉ u.joined (u.importLines defined) others m := by
    intro mem
    rcases mem_joined mem with is | ⟨i, imported, mem⟩ | mem | mem
    · exact absurd is (by decide)
    · exact (separates.writable i imported).noReturn mem
    · exact separates.noReturn mem
    · exact absurd mem (by decide)
  have sound : ∀ l' ∈ ls.map (Leaf.ended [ofChar '\n', ofChar '\n']) ++ [l.ended [ofChar '\n']],
      (l'.IsSound ∧ l'.Ends) ∧ l'.text.IsPlain ∧ l'.text.getLast? ≠ some (ofChar '\\') := by
    intro l' mem
    rcases List.mem_append.1 mem with mem | mem
    · obtain ⟨l, inside, rfl⟩ := List.mem_map.1 mem
      obtain ⟨t, -, w, d, renders, -⟩ := exists_right_of_mem hides inside
      exact renders.sound_ended (.inr rfl)
    · obtain rfl := List.mem_singleton.1 mem
      obtain ⟨w, d, renders, -⟩ := exposes
      exact renders.sound_ended (.inl rfl)
  have plain : (sheet (u.importLines defined)
      (ls.map (Leaf.ended [ofChar '\n', ofChar '\n']) ++ [l.ended [ofChar '\n']])).IsPlain := by
    obtain ⟨plain, last⟩ := isPlain_importPart fun line (mem : line ∈ u.importLines defined) => by
      obtain ⟨i, ⟨imported, -⟩, rfl⟩ := mem_importLines.1 mem
      exact (separates.writable i imported).plain
    exact (isPlain_append last).2 ⟨plain, (isPlain_flatMap fun l' mem => (sound l' mem).2).1⟩
  rw [whole] at noReturn ⊢
  obtain ⟨u', parsed, imports', parts⟩ :=
    exists_parse_sheet all (fun l' mem => (sound l' mem).1) plain noReturn
  obtain ⟨ts, m', none, types, front, ⟨part', isPart⟩, back⟩ := exists_split_left parts
  obtain rfl := List.forall₂_nil_right_iff.1 back
  rw [List.forall₂_map_right_iff] at front
  rw [same] at imports'
  refine ⟨u', ts, m', parsed, imports' ▸ texts, imports' ▸ kept, types,
    (forall₂_trans front hides).imp fun t' t is => ?_, exposes.agrees isPart⟩
  obtain ⟨l', ⟨part, isPart⟩, hides⟩ := is
  exact hides.agrees isPart

/-- Types that agree with those of another text have a second one to split and merge. -/
theorem CompilationUnit.Separates.of_agrees (separates : u.Separates) {u' : CompilationUnit}
    (noReturn : ofChar '\r' ∉ u'.code) (imports : ∀ i ∈ u'.imports, i ∈ u.imports)
    (agrees : ∀ t' ∈ u'.types, ∃ t, u.Agrees t u' t') : u'.Separates where
  noReturn := noReturn
  writable i mem := separates.writable i (imports i mem)
  turns t' mem := by
    obtain ⟨t, agrees⟩ := agrees t' mem
    exact agrees.turns

end

/-! ## The second round -/

section

variable {u u' : CompilationUnit} {m m' : TypeDecl} {before after ts : List TypeDecl}

theorem CompilationUnit.mem_definedBy_of_agrees (imports : ∀ i ∈ u'.imports, i ∈ u.imports)
    (others : List.Forall₂ (fun t' t => u.Agrees t u' t') ts (before ++ after))
    (agrees : u.Agrees m u' m') :
    ∀ n ∈ u'.definedBy (ts ++ [m']), n ∈ u.definedBy (before ++ m :: after) := by
  intro n mem
  obtain ⟨t', inside, mem⟩ := List.mem_flatMap.1 mem
  obtain ⟨t, isType, agrees⟩ : ∃ t ∈ before ++ m :: after, u.Agrees t u' t' := by
    rcases List.mem_append.1 inside with inside | inside
    · obtain ⟨t, mem, agrees⟩ := exists_right_of_mem others inside
      exact ⟨t, ((List.sublist_cons_self m after).append_left before).subset mem, agrees⟩
    · rw [List.mem_singleton.1 inside]
      exact ⟨m, by simp, agrees⟩
  refine List.mem_flatMap.2 ⟨t, isType, ?_⟩
  rw [agrees.names] at mem
  rcases List.mem_append.1 mem with mem | mem
  · obtain ⟨i, imported, mem⟩ := List.mem_flatMap.1 mem
    exact List.mem_append_left _ (List.mem_flatMap.2 ⟨i, imports i imported, mem⟩)
  · exact List.mem_append_right _ mem

theorem CompilationUnit.joined_congr {lines : List Text} {others : List TypeDecl}
    (hidden : List.Forall₂ (fun t' t => u'.hiddenBody t' = u.hiddenBody t) ts others)
    (shown : u'.publicBody m' = u.publicBody m) :
    u'.joined lines ts m' = u.joined lines others m := by
  have texts : ts.map (fun t => u'.hiddenText t ++ [ofChar '\n'])
      = others.map (fun t => u.hiddenText t ++ [ofChar '\n']) :=
    map_eq_map_of_forall₂ hidden fun t' _ t _ same => by rw [hiddenText, hiddenText, same]
  rw [joined, joined, publicText, publicText, shown, List.flatMap, List.flatMap, texts]

open Merge.Choice in
/-- The type that was put last is chosen again, if it is to be the last or is the only one. -/
theorem CompilationUnit.make_again {p : Policy} (main : m.header.declaresMain = true)
    (alone : p ≠ .last → ∀ t ∈ ts, t.header.declaresMain = false) (defined : List Text) :
    Merge.Choice.make p ((ts ++ [m]).map (u.extract defined)) = .ok (u.choice defined ts m []) := by
  by_cases last : p = .last
  · subst last
    exact make_last (by decide) main (by simp) defined
  · rw [List.map_append, List.map_singleton]
    refine make_of_alone p ((u.isCandidate_extract defined m).trans main) fun e mem => ?_
    rw [List.append_nil] at mem
    obtain ⟨t, inside, rfl⟩ := List.mem_map.1 mem
    exact (u.isCandidate_extract defined t).trans (alone last t inside)

/-- What the files of types were merged to is split and merged to itself. -/
theorem CompilationUnit.Separates.split_merged (separates : u.Separates) {asked : Option Text}
    {configured : Text} {p : Policy} (policy : Merge.policy asked configured = .ok p)
    (inside : ∀ t ∈ before ++ m :: after, t ∈ u.types)
    (distinct : ((before ++ m :: after).map TypeDecl.name).Nodup)
    (main : m.header.declaresMain = true)
    (alone : p ≠ .last → ∀ t ∈ before ++ after, t.header.declaresMain = false)
    (hides : ∀ t ∈ before ++ after, ∃ l : Leaf, l.Hides u t) (exposes : ∃ l : Leaf, l.Exposes u m) :
    ∃ result r, split (u.merged before m after).content = .ok result ∧
      merge result.files asked configured = .ok r ∧
      r.content = (u.merged before m after).content := by
  have shown : ∀ t ∈ before ++ after, u.hiddenBody t ≠ [] := fun t mem =>
    separates.hiddenBody_ne_nil
      (inside t (((List.sublist_cons_self m after).append_left before).subset mem))
  have content : (u.merged before m after).content
      = u.joined (u.importLines (u.definedBy (before ++ m :: after))) (before ++ after) m := by
    rw [content_merged shown, imports_merged]
  obtain ⟨ls, hides⟩ := exists_forall₂ hides
  obtain ⟨l, exposes⟩ := exposes
  obtain ⟨u', ts, m', parsed, lines, imports, types, others, agrees, exposed⟩ :=
    @Separates.exists_parse_joined u (u.definedBy (before ++ m :: after)) m separates _ _ _ hides
      exposes
  rw [← content] at parsed
  have agree : List.Forall₂ (fun t' t => u.Agrees t u' t') ts (before ++ after) :=
    others.imp fun _ _ is => is.1
  have separates' : u'.Separates := by
    refine separates.of_agrees ?_ (fun i mem => (imports i mem).1) fun t' mem => ?_
    · rw [code_of_parse parsed]
      exact notMem_unifyBreaks _
    · rw [types] at mem
      rcases List.mem_append.1 mem with mem | mem
      · obtain ⟨t, -, agrees⟩ := exists_right_of_mem agree mem
        exact ⟨t, agrees⟩
      · exact ⟨m, List.mem_singleton.1 mem ▸ agrees⟩
  have names : ts.map TypeDecl.name = (before ++ after).map TypeDecl.name :=
    map_eq_map_of_forall₂ agree fun t' _ t _ is => is.name
  have distinct' : (u'.types.map TypeDecl.name).Nodup := by
    rw [types, List.map_append, List.map_singleton, names, agrees.name]
    have perm : ((before ++ m :: after).map TypeDecl.name).Perm
        ((before ++ after).map TypeDecl.name ++ [m.name]) := by
      rw [← List.map_singleton, ← List.map_append]
      exact (List.perm_middle.trans (List.perm_append_singleton m _).symm).map _
    exact perm.nodup_iff.1 distinct
  have files : (SplitFiles.ofUnit u').files = (ts ++ [m']).map (SplitFiles.file u') := by
    rw [SplitFiles.files_ofUnit distinct', types]
    rfl
  have inside' : ∀ t ∈ ts ++ [m'], t ∈ u'.types := fun t mem => types ▸ mem
  have alone' : p ≠ .last → ∀ t' ∈ ts, t'.header.declaresMain = false := fun other t' mem => by
    obtain ⟨t, isType, is⟩ := exists_right_of_mem agree mem
    exact is.main.trans (alone other t isType)
  refine ⟨_, u'.merged ts m' [], by rw [split, parsed]; rfl, ?_, ?_⟩
  · rw [files]
    exact separates'.merge_files inside' policy (make_again (agrees.main.trans main) alone')
  · have shown' : ∀ t ∈ ts ++ [], u'.hiddenBody t ≠ [] := fun t mem =>
      separates'.hiddenBody_ne_nil (inside' t (by simpa using Or.inl (by simpa using mem)))
    have stays := importLines_eq lines fun i mem => Import.isSelf_mono
      (mem_definedBy_of_agrees (fun i mem => (imports i mem).1) agree agrees) (imports i mem).2
    rw [content, content_merged shown', imports_merged, stays, List.append_nil]
    exact joined_congr (others.imp fun _ _ is => is.2) exposed

end

/-- A text whose types are declarations, split and merged, comes to a text that splitting and
merging leave as it is, if every type but the one with the entry point is steady and, under the
policy that takes the first, no other type has an entry point. -/
theorem merge_split_twice {s : Text} {u : CompilationUnit} (parsed : parse s = .ok u)
    (separable : s.IsSeparable u)
    (declares : ∀ item ∈ s.items, (Role.ofItem item).isType = true → item.IsTypeDeclaration)
    {asked : Option Text} {configured : Text} {p : Policy}
    (policy : Merge.policy asked configured = .ok p) {result : SplitFiles} {r : Merged}
    (ran : split s = .ok result) (merged : merge result.files asked configured = .ok r)
    (steady : ∀ t ∈ u.types, t.name ≠ r.mainClassName → u.IsSteady t)
    (alone : p = .first → r.demotedEntryPoints = []) :
    ∃ result' r', split r.content = .ok result' ∧ merge result'.files asked configured = .ok r' ∧
      r'.content = r.content := by
  have separates := separable.separates parsed
  have promotes : ∀ t ∈ u.types, ∃ part l w d, Leaf.Turns u t part l ∧ l.Promotes w d := by
    intro t mem
    obtain ⟨d, declared, part, l, turns, item, -⟩ :=
      exists_right_of_mem (separable.exists_leaves parsed) mem
    obtain ⟨isItem, role, -⟩ := Declared.mem_ofItems declared
    obtain ⟨w, d', promotes⟩ := turns.exists_promotes
      (item ▸ declares d.item isItem (by rw [role]; rfl))
    exact ⟨part, l, w, d', turns, promotes⟩
  obtain ⟨ts, files, inside, distinct⟩ := SplitFiles.exists_types u
  rw [split, parsed] at ran
  obtain rfl := Except.ok.inj ran
  rw [files] at merged
  obtain ⟨p', before, m, after, policy', rfl, main, -, last, fails, rfl⟩ :=
    separates.merge_files_eq_ok inside merged
  obtain rfl := Except.ok.inj (policy.symm.trans policy')
  have isType : ∀ t ∈ before ++ after, t ∈ u.types := fun t mem =>
    inside t (((List.sublist_cons_self m after).append_left before).subset mem)
  refine separates.split_merged policy inside distinct main (fun other t mem => ?_)
    (fun t mem => ?_) ?_
  · cases p with
    | last => exact absurd rfl other
    | fail => exact fails rfl t mem
    | first =>
      have none := alone rfl
      rw [demotedEntryPoints_merged, List.map_eq_nil_iff, List.filter_eq_nil_iff] at none
      exact Bool.eq_false_iff.2 (none t mem)
  · have apart : t.name ≠ m.name := by
      rw [List.map_append, List.map_cons, List.perm_middle.nodup_iff, List.nodup_cons,
        ← List.map_append] at distinct
      intro same
      exact distinct.1 (same ▸ List.mem_map_of_mem mem)
    obtain ⟨part, l, w, d, turns, promotes⟩ := promotes t (isType t mem)
    exact turns.exists_hides promotes separates.writable separates.noReturn
      (steady t (isType t mem) (by rwa [mainClassName_merged main]))
  · obtain ⟨part, l, w, d, turns, promotes⟩ := promotes m (inside m (by simp))
    exact turns.exists_exposes promotes

theorem merge_split_twice_housemates : ∃ result r, split housemates = .ok result ∧
    merge result.files none "last" = .ok r ∧
    ∃ result' r', split r.content = .ok result' ∧ merge result'.files none "last" = .ok r' ∧
      r'.content = r.content := by
  obtain ⟨u, parsed, lines, steady⟩ : ∃ u ∈ (parse housemates).toOption,
      (∀ t ∈ u.types, u.BeginsLine t ∧ u.IsLoose t) ∧ ∀ t ∈ u.types, u.IsSteady t := by
    rw [housemates, ofString_ofList, ofString_ofList]
    decide +kernel
  obtain ⟨result, ran, merges⟩ : ∃ result ∈ (split housemates).toOption,
      (merge result.files none "last").toOption.isSome := by
    rw [housemates, ofString_ofList, ofString_ofList]
    decide +kernel
  obtain ⟨r, merged⟩ := exists_eq_ok merges
  have parsed := toOption_eq_some.1 parsed
  have ran := toOption_eq_some.1 ran
  have declares : ∀ item ∈ housemates.items, (Role.ofItem item).isType = true →
      item.IsTypeDeclaration := by
    intro item mem isType
    cases role : Role.ofItem item with
    | type h => exact (isSource_housemates.declares item mem).isTypeDeclaration role
    | _ => rw [role] at isType; cases isType
  have policy : Merge.policy none "last" = .ok .last := rfl
  exact ⟨result, r, ran, merged, merge_split_twice parsed
    (isSource_housemates.isSeparable parsed (fun t mem => (lines t mem).1) fun t mem =>
      (lines t mem).2) declares policy ran merged (fun t mem _ => steady t mem) (by simp)⟩

/-- A text with a comment between `public` and the line of its type. -/
def drifting : Text :=
  "public // note\nclass A \x7b\x7d\n"
    ++ "class B \x7b public static void main(String[] a) \x7b\x7d \x7d\n"

/-- Whether a second round of splitting and merging gives another content than the first. -/
def Text.Drifts (s policy : Text) : Prop :=
  ∃ result r result' r', split s = .ok result ∧
    merge result.files (some policy) "last" = .ok r ∧ split r.content = .ok result' ∧
    merge result'.files (some policy) "last" = .ok r' ∧ r'.content ≠ r.content

theorem Text.drifts_of_toOption {s policy : Text}
    (drifts : ∃ result ∈ (split s).toOption,
      ∃ r ∈ (merge result.files (some policy) "last").toOption,
        ∃ result' ∈ (split r.content).toOption,
          ∃ r' ∈ (merge result'.files (some policy) "last").toOption, r'.content ≠ r.content) :
    s.Drifts policy := by
  obtain ⟨result, ran, r, merged, result', ran', r', merged', other⟩ := drifts
  exact ⟨result, r, result', r', toOption_eq_some.1 ran, toOption_eq_some.1 merged,
    toOption_eq_some.1 ran', toOption_eq_some.1 merged', other⟩

/-- The comment is lost in the second round, and of two types with a main method the first is
another one then. -/
theorem merge_split_twice_drifting : drifting.Drifts "last" ∧ rivals.Drifts "first" := by
  constructor <;> apply drifts_of_toOption
  · rw [drifting, ofString_ofList, ofString_ofList]
    decide +kernel
  · rw [rivals, ofString_ofList, ofString_ofList]
    decide +kernel

end JavaUnits
