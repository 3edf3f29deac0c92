import JavaUnits.Proofs.SplitLeaves

/-!
Merges of the files that a text is split into. From the file of a type a merge takes the imports of
the text and the lines of the type, without its visibility unless the file is chosen. What is merged
is told by the text that was split.
-/

namespace JavaUnits

open CodePoint Token Scan Text CompilationUnit

/-! ## Names -/

section

variable {lines : List Text} {imports : List (List Piece)} {ls : List Leaf}

theorem declaredNames_sheet (all : List.Forall₂ IsImportLine lines imports)
    (sound : ∀ l ∈ ls, l.IsSound ∧ l.Ends) (plain : (sheet lines ls).IsPlain)
    (noReturn : ofChar '\r' ∉ sheet lines ls) :
    declaredNames (sheet lines ls)
      = .ok (imports.flatMap (fun ps => declaredNames.collect none (ps.map Piece.token))
        ++ ls.flatMap Leaf.names) := by
  obtain ⟨scanned, -⟩ := scanned_sheet all sound plain
  have reads : Reads (sheet lines ls)
      ((sheetItems imports ls).map (List.map Piece.token)).flatten := by
    rw [← List.map_flatten]
    exact ⟨_, _, scanned.whole, scanned.fits, scanned.isTail, scanned.plain, rfl⟩
  rw [declaredNames_of_reads reads noReturn, tokens_sheet, declaredNames.collect_flatten,
    List.flatMap_append, List.flatMap_map, List.flatMap_map, List.flatMap_assoc]
  · congr 2
    refine List.flatMap_congr fun l _ => ?_
    rw [Leaf.names, Leaf.tokens, List.flatMap_map]
  · intro item mem
    apply endNames_of_isClosed
    rcases List.mem_append.1 mem with mem | mem
    · obtain ⟨ps, isItem, rfl⟩ := List.mem_map.1 mem
      obtain ⟨line, -, isLine⟩ := exists_left_of_mem all isItem
      exact isLine.closed
    · obtain ⟨ps, isItem, rfl⟩ := List.mem_map.1 mem
      obtain ⟨l, inside, isItem⟩ := List.mem_flatMap.1 isItem
      exact (sound l inside).1.closed ps isItem

end

/-- The names of types among the tokens of an import. -/
def Import.names (i : Import) : List Text :=
  declaredNames.collect none (read i.text)

theorem Import.names_of_lines {imports : List Import} {items : List (List Piece)}
    (writable : ∀ i ∈ imports, i.IsWritable)
    (all : List.Forall₂ IsImportLine (imports.map Import.text) items) :
    items.flatMap (fun ps => declaredNames.collect none (ps.map Piece.token))
      = imports.flatMap names := by
  rw [List.forall₂_map_left_iff] at all
  induction all with
  | nil => rfl
  | @cons i ps imports items isLine _ ih =>
    rw [List.forall_mem_cons] at writable
    have reads : Reads i.text (ps.map Piece.token) :=
      ⟨ps, [], by rw [isLine.source, List.append_nil], isLine.fits [], IsGap.nil.tail,
        writable.1.plain, rfl⟩
    rw [List.flatMap_cons, List.flatMap_cons, ih writable.2, names, reads.read_eq]

/-- The names of the types in a type's part of the text. -/
def CompilationUnit.names (u : CompilationUnit) (t : TypeDecl) : List Text :=
  declaredNames.collect none (read (u.text t.span []))

namespace Leaf

variable {u : CompilationUnit} {t : TypeDecl} {part : Part} {l : Leaf}

theorem reads_text (fits : ∀ ps ∈ l.items, ∀ s, Fits ps s) (closes : l.Closes) :
    Reads l.text l.tokens.flatten := by
  have all : Fits (l.pieces ++ l.strays.flatten) l.gap := fits_flatten fits l.gap
  have plain : ∀ p ∈ l.pieces ++ l.strays.flatten, p.IsPlain := fun p mem => by
    obtain ⟨ps, inside, mem⟩ := List.mem_flatten.1 (show p ∈ l.items.flatten from mem)
    exact closes.plain ps inside p mem
  have text : l.text = source (l.pieces ++ l.strays.flatten) ++ l.gap := by
    rw [Leaf.text, behind, source_append, List.append_assoc]
  rw [text, tokens, ← List.map_flatten]
  exact ⟨_, _, rfl, all, closes.isTail, (isPlain_source all).2 ⟨plain, closes.plainGap⟩, rfl⟩

theorem Turns.names_eq (turns : Turns u t part l) : u.names t = l.names := by
  have text := turns.shows.text_eq (edited_nil _ _)
  rw [turns.pieces, turns.trailing] at text
  have reads := reads_text turns.sound.fits turns.closes
  rw [CompilationUnit.names, text, show source l.pieces ++ l.behind = l.text from rfl,
    reads.read_eq, declaredNames.collect_flatten fun item mem => ?_, names]
  obtain ⟨ps, isItem, rfl⟩ := List.mem_map.1 mem
  exact endNames_of_isClosed (turns.sound.closed ps isItem)

theorem Turns.declaredNames_fileText (turns : Turns u t part l)
    (writable : ∀ i ∈ u.imports, i.IsWritable) (noReturn : ofChar '\r' ∉ u.code) :
    declaredNames (SplitFiles.fileText u t)
      = .ok (u.imports.flatMap Import.names ++ u.names t) := by
  obtain ⟨items, all, same⟩ := Import.exists_importLines writable
  have plain := turns.plain_fileText writable
  have noReturn := @SplitFiles.noReturn_fileText u t writable noReturn
  have sound := turns.isSound_published
  have ends := turns.closes_published.ends (.inl rfl)
  rw [turns.fileText_eq] at plain noReturn ⊢
  rw [declaredNames_sheet all (by simpa using ⟨sound.ended _, ends⟩) plain noReturn,
    List.flatMap_singleton, turns.names_eq, ← turns.names_published]
  rw [Import.names_of_lines writable all]
  rfl

end Leaf

/-! ## What is taken from the files -/

namespace CompilationUnit

/-- Whether the imports are written as they are read, and the types are leaves of the text that can
be made public and demoted again. -/
structure Separates (u : CompilationUnit) : Prop where
  noReturn : ofChar '\r' ∉ u.code
  writable : ∀ i ∈ u.imports, i.IsWritable
  turns : ∀ t ∈ u.types, ∃ part l, Leaf.Turns u t part l

def extract (u : CompilationUnit) (defined : List Text) (t : TypeDecl) : Extract where
  path := SplitFiles.fileName t
  imports := u.imports.filter fun i => !i.isSelf defined
  typeNames := [t.name]
  mainClassName := if t.header.declaresMain then some t.name else none
  body := u.publicBody t
  demotedBody := u.hiddenBody t

theorem isCandidate_extract (u : CompilationUnit) (defined : List Text) (t : TypeDecl) :
    (u.extract defined t).isCandidate = t.header.declaresMain := by
  cases main : t.header.declaresMain <;> simp [extract, Extract.isCandidate, main]

end CompilationUnit

theorem Text.IsSeparable.separates {s : Text} {u : CompilationUnit} (separable : s.IsSeparable u)
    (parsed : parse s = .ok u) : u.Separates where
  noReturn := code_of_parse parsed ▸ s.notMem_unifyBreaks
  writable := separable.isWritable parsed
  turns t mem := by
    obtain ⟨d, -, part, l, turns, -⟩ := exists_right_of_mem (separable.exists_leaves parsed) mem
    exact ⟨part, l, turns⟩

def SplitFiles.file (u : CompilationUnit) (t : TypeDecl) : Text × Text :=
  (fileName t, fileText u t)

/-- The names that the files of types declare. -/
def CompilationUnit.definedBy (u : CompilationUnit) (ts : List TypeDecl) : List Text :=
  ts.flatMap fun t => u.imports.flatMap Import.names ++ u.names t

namespace CompilationUnit.Separates

variable {u : CompilationUnit} {ts : List TypeDecl}

theorem extracted (separates : u.Separates) (inside : ∀ t ∈ ts, t ∈ u.types)
    (defined : List Text) :
    Merge.Extracted (ts.map (SplitFiles.file u)) defined (ts.map (u.extract defined)) := by
  rw [Merge.Extracted, List.forall₂_map_left_iff, List.forall₂_map_right_iff, List.forall₂_same]
  intro t mem
  obtain ⟨part, l, turns⟩ := separates.turns t (inside t mem)
  obtain ⟨u', t', parsed, imports, types, name, main, isPublic, body, demoted⟩ :=
    turns.exists_file separates.writable separates.noReturn
  refine ⟨u', parsed, ?_⟩
  have candidate := @mainClassName_of_single (SplitFiles.fileName t) defined u' t' types isPublic
  rw [main, name] at candidate
  simp only [extract, Extract.ofUnit, imports, types, List.map_singleton, name, ← body, ← demoted]
  simp only [Extract.ofUnit] at candidate
  rw [candidate]
  rfl

theorem definedNames (separates : u.Separates) (inside : ∀ t ∈ ts, t ∈ u.types) :
    Merge.definedNames (ts.map (SplitFiles.file u)) = .ok (u.definedBy ts) := by
  rw [definedBy, List.flatMap]
  apply definedNames_of_declared
  rw [List.forall₂_map_left_iff, List.forall₂_map_right_iff, List.forall₂_same]
  intro t mem
  obtain ⟨part, l, turns⟩ := separates.turns t (inside t mem)
  exact turns.declaredNames_fileText separates.writable separates.noReturn

theorem hiddenBody_ne_nil (separates : u.Separates) {t : TypeDecl} (mem : t ∈ u.types) :
    u.hiddenBody t ≠ [] := by
  obtain ⟨part, l, turns⟩ := separates.turns t mem
  obtain ⟨declares, -⟩ := turns.declares_hidden separates.writable separates.noReturn
  obtain ⟨p, ps, pieces⟩ := List.exists_cons_of_ne_nil declares.ne_nil
  obtain ⟨c, s, lexeme, ink⟩ : p.IsInk :=
    (declares.fits (l.hidden part).pieces List.mem_cons_self []).isInk p (by simp [pieces])
  rw [turns.hiddenBody_eq, ← trimBlankLines_append_break,
    ← Leaf.text_ended declares.fits declares.ne_nil]
  refine trimBlankLines_ne_nil ?_ ink
  rw [Leaf.text, Leaf.ended, pieces, source_cons, lexeme]
  simp

end CompilationUnit.Separates

/-! ## What is merged -/

def CompilationUnit.choice (u : CompilationUnit) (defined : List Text) (before : List TypeDecl)
    (m : TypeDecl) (after : List TypeDecl) : Merge.Choice :=
  ⟨before.map (u.extract defined), u.extract defined m, after.map (u.extract defined)⟩

/-- The lines of imports that are no longer self-imports beside the names, each once. -/
def CompilationUnit.importLines (u : CompilationUnit) (defined : List Text) : List Text :=
  Text.sort ((u.imports.filter fun i => !i.isSelf defined).map Import.text).eraseDups

/-- The text of a type without its visibility, its last line ended. -/
def CompilationUnit.hiddenText (u : CompilationUnit) (t : TypeDecl) : Text :=
  ofLines (u.hiddenBody t) ++ [ofChar '\n']

def CompilationUnit.publicText (u : CompilationUnit) (t : TypeDecl) : Text :=
  ofLines (u.publicBody t) ++ [ofChar '\n']

/-- The text of imports and types, all but the last of which have no visibility. -/
def CompilationUnit.joined (u : CompilationUnit) (lines : List Text) (others : List TypeDecl)
    (m : TypeDecl) : Text :=
  importPart lines ++ (others.flatMap (fun t => u.hiddenText t ++ [ofChar '\n']) ++ u.publicText m)

/-- What files of types are merged to when that of `m` is chosen. -/
def CompilationUnit.merged (u : CompilationUnit) (before : List TypeDecl) (m : TypeDecl)
    (after : List TypeDecl) : Merged :=
  let c := u.choice (u.definedBy (before ++ m :: after)) before m after
  Merge.ofChoice c.all c

namespace CompilationUnit

variable {u : CompilationUnit} {defined : List Text} {before after : List TypeDecl} {m : TypeDecl}

theorem all_choice : (u.choice defined before m after).all
    = (before ++ m :: after).map (u.extract defined) := by
  simp [Merge.Choice.all, choice]

theorem others_choice : (u.choice defined before m after).others
    = (before ++ after).map (u.extract defined) := by
  rw [Merge.Choice.others, choice, ← List.map_append]

theorem imports_merged (u : CompilationUnit) (before : List TypeDecl) (m : TypeDecl)
    (after : List TypeDecl) :
    (u.merged before m after).imports = u.importLines (u.definedBy (before ++ m :: after)) := by
  apply sort_eraseDups_congr
  intro line
  rw [all_choice, List.flatMap_map, List.mem_flatMap]
  constructor
  · rintro ⟨t, -, mem⟩
    exact mem
  · intro mem
    exact ⟨m, by simp, mem⟩

theorem content_merged (shown : ∀ t ∈ before ++ after, u.hiddenBody t ≠ []) :
    (u.merged before m after).content
      = u.joined (u.merged before m after).imports (before ++ after) m := by
  have kept : ((u.choice (u.definedBy (before ++ m :: after)) before m after).others.filter
        fun e => !e.demotedBody.isEmpty)
      = (before ++ after).map (u.extract (u.definedBy (before ++ m :: after))) := by
    rw [others_choice, List.filter_eq_self]
    intro e mem
    obtain ⟨t, inside, rfl⟩ := List.mem_map.1 mem
    simpa [extract] using shown t inside
  have bodies : Merge.bodies (u.choice (u.definedBy (before ++ m :: after)) before m after)
      = (before ++ after).flatMap (fun t => u.hiddenText t ++ [ofChar '\n']) ++ u.publicText m := by
    rw [Merge.bodies, kept, Merge.assemble_eq, List.map_map]
    simp only [List.flatMap_nil, List.isEmpty_nil, if_true, List.nil_append, List.flatMap_map]
    rfl
  rw [joined, ← bodies]
  exact Merge.content_eq _ _

theorem demotedEntryPoints_merged (u : CompilationUnit) (before : List TypeDecl) (m : TypeDecl)
    (after : List TypeDecl) :
    (u.merged before m after).demotedEntryPoints
      = ((before ++ after).filter fun t => t.header.declaresMain).map TypeDecl.name := by
  show (u.choice _ before m after).others.filterMap Extract.mainClassName = _
  rw [others_choice, List.filterMap_map, ← List.filterMap_eq_map, List.filterMap_filter]
  refine List.filterMap_congr fun t _ => ?_
  cases main : t.header.declaresMain <;> simp [extract, main]

theorem mainClassName_merged (main : m.header.declaresMain = true) :
    (u.merged before m after).mainClassName = m.name := by
  show (u.extract _ m).mainClassName.getD [] = m.name
  simp [extract, main]

open Merge.Choice in
/-- The file of the last type is chosen if the policy does not forbid it. -/
theorem make_last {p : Policy} (policy : p ≠ .first) (main : m.header.declaresMain = true)
    (alone : p = .fail → ∀ t ∈ before, t.header.declaresMain = false) (defined : List Text) :
    Merge.Choice.make p ((before ++ [m]).map (u.extract defined))
      = .ok (u.choice defined before m []) := by
  rw [List.map_append, List.map_singleton]
  by_cases fails : p = .fail
  · refine make_of_alone p ((u.isCandidate_extract defined m).trans main) fun e mem => ?_
    rw [List.append_nil] at mem
    obtain ⟨t, inside, rfl⟩ := List.mem_map.1 mem
    exact (u.isCandidate_extract defined t).trans (alone fails t inside)
  · have found : first? (u.extract defined m :: (before.map (u.extract defined)).reverse)
        = some ⟨[], u.extract defined m, (before.map (u.extract defined)).reverse⟩ :=
      @first?_append [] _ _ ((u.isCandidate_extract defined m).trans main) (by simp)
    have last : last? (before.map (u.extract defined) ++ [u.extract defined m])
        = some (u.choice defined before m []) := by
      rw [last?, List.reverse_append, List.reverse_singleton, List.singleton_append, found]
      simp [choice]
    rw [make, if_neg fun both => fails both.1, if_neg policy, last]

namespace Separates

variable {asked : Option Text} {configured : Text} {ts : List TypeDecl} {r : Merged}

theorem merge_files (separates : u.Separates) (inside : ∀ t ∈ before ++ m :: after, t ∈ u.types)
    {p : Policy} (policy : Merge.policy asked configured = .ok p)
    (made : ∀ defined, Merge.Choice.make p ((before ++ m :: after).map (u.extract defined))
      = .ok (u.choice defined before m after)) :
    merge ((before ++ m :: after).map (SplitFiles.file u)) asked configured
      = .ok (u.merged before m after) := by
  have merged := merge_of_extracted policy (by simp) (separates.definedNames inside)
    (separates.extracted inside _) (made _)
  rwa [← all_choice] at merged

/-- A merge of the files of types is told by the type whose file is chosen. -/
theorem merge_files_eq_ok (separates : u.Separates) (inside : ∀ t ∈ ts, t ∈ u.types)
    (merged : merge (ts.map (SplitFiles.file u)) asked configured = .ok r) :
    ∃ p before m after, Merge.policy asked configured = .ok p ∧ ts = before ++ m :: after ∧
      m.header.declaresMain = true ∧
      (p = .first → ∀ t ∈ before, t.header.declaresMain = false) ∧
      (p ≠ .first → ∀ t ∈ after, t.header.declaresMain = false) ∧
      (p = .fail → ∀ t ∈ before ++ after, t.header.declaresMain = false) ∧
      r = u.merged before m after := by
  obtain ⟨p, defined, es, c, policy, names, extracted, suits, rfl⟩ := merge_eq_ok merged
  rw [separates.definedNames inside] at names
  obtain rfl := Except.ok.inj names
  obtain rfl := extracted.unique (separates.extracted inside _)
  obtain ⟨before, later, rfl, front, back⟩ := List.map_eq_append_iff.1 suits.all.symm
  obtain ⟨m, after, rfl, chosen, back⟩ := List.map_eq_cons_iff.1 back
  have same : c = u.choice (u.definedBy (before ++ m :: after)) before m after := by
    cases c
    simp only [choice, front, chosen, back]
  subst same
  have candidate (t : TypeDecl) := u.isCandidate_extract (u.definedBy (before ++ m :: after)) t
  have apart (ts : List TypeDecl) (none : ∀ e ∈ ts.map (u.extract _), e.isCandidate = false) :
      ∀ t ∈ ts, t.header.declaresMain = false := fun t mem => by
    rw [← candidate t]
    exact none _ (List.mem_map_of_mem mem)
  refine ⟨p, before, m, after, policy, rfl, ?_, fun is => apart _ (suits.first is),
    fun is => apart _ (suits.last is), fun is => apart _ ?_, ?_⟩
  · rw [← candidate m]
    exact suits.candidate
  · rw [← others_choice]
    exact suits.alone is
  · rw [← all_choice]
    rfl

end Separates

end CompilationUnit

end JavaUnits
