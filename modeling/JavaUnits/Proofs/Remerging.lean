import JavaUnits.Proofs.Passages
import JavaUnits.Proofs.SelfImports

/-!
Merging what a merge has written. Its content has its imports on lines of their own and nothing but
types behind them, so that its body is the rest of the content. A merge of the content alone finds
the same entry point and drops no import, and so writes the same content again.
-/

namespace JavaUnits

open CodePoint Token Scan Text CompilationUnit

/-! ## Lines that are trimmed already -/

/-- Whether the lines are some, without blank ones at either end. -/
structure Text.IsTrimmed (ls : List Text) : Prop where
  within : ∀ line ∈ ls, ofChar '\n' ∉ line
  first : ∃ line, ls.head? = some line ∧ isBlank line = false
  last : ∃ line, ls.getLast? = some line ∧ isBlank line = false

namespace Text

theorem lines_ofLines {ls : List Text} (more : ls ≠ [])
    (within : ∀ line ∈ ls, ofChar '\n' ∉ line) : lines (ofLines ls) = ls := by
  induction ls with
  | nil => exact absurd rfl more
  | cons line ls ih =>
    rw [List.forall_mem_cons] at within
    cases ls with
    | nil => simpa [ofLines, join] using lines_of_noBreak within.1
    | cons next ls =>
      rw [ofLines_cons line (by simp), lines_append_break, ih (by simp) within.2,
        lines_of_noBreak within.1]
      rfl

theorem IsTrimmed.ne_nil {ls : List Text} (trimmed : IsTrimmed ls) : ls ≠ [] := by
  rintro rfl
  obtain ⟨line, first, -⟩ := trimmed.first
  cases first

theorem trimBy_ends {α : Type} {p : α → Bool} {l : List α} (more : trimBy p l ≠ []) :
    (∃ x, (trimBy p l).head? = some x ∧ p x = false) ∧
      ∃ x, (trimBy p l).getLast? = some x ∧ p x = false := by
  have stays (xs : List α) {x : α} (first : (xs.dropWhile p).head? = some x) : p x = false := by
    simpa [first] using List.head?_dropWhile_not p xs
  obtain ⟨x, xs, split⟩ := List.exists_cons_of_ne_nil more
  have begins : trimBy p l <+: l.dropWhile p := by
    simpa [trimBy] using (List.dropWhile_suffix (l := (l.dropWhile p).reverse) p).reverse
  constructor
  · obtain ⟨back, whole⟩ := begins
    refine ⟨x, by rw [split]; rfl, stays l ?_⟩
    rw [← whole, split]
    rfl
  · obtain ⟨y, last⟩ := Option.isSome_iff_exists.1 (List.getLast?_isSome.2 more)
    refine ⟨y, last, stays (l.dropWhile p).reverse ?_⟩
    rwa [trimBy, List.getLast?_reverse] at last

theorem trimBy_eq_self {α : Type} {p : α → Bool} {l : List α}
    (first : ∃ x, l.head? = some x ∧ p x = false) (last : ∃ x, l.getLast? = some x ∧ p x = false) :
    trimBy p l = l := by
  obtain ⟨x, first, staysFirst⟩ := first
  obtain ⟨y, last, staysLast⟩ := last
  obtain ⟨xs, rfl⟩ := List.head?_eq_some_iff.1 first
  rw [List.getLast?_eq_head?_reverse] at last
  obtain ⟨ys, split⟩ := List.head?_eq_some_iff.1 last
  rw [trimBy, List.dropWhile_cons_of_neg (by simp [staysFirst]), split,
    List.dropWhile_cons_of_neg (by simp [staysLast]), ← split, List.reverse_reverse]

theorem isTrimmed_trimBlankLines {s : Text} (more : trimBlankLines (lines s) ≠ []) :
    IsTrimmed (trimBlankLines (lines s)) := by
  obtain ⟨first, last⟩ := trimBy_ends more
  refine ⟨fun line mem => ?_, first, last⟩
  obtain ⟨front, back, whole, -⟩ := trimBy_split isBlank (lines s)
  have inside : line ∈ lines s := by
    rw [whole]
    exact List.mem_append_right _ (List.mem_append_left _ mem)
  exact fun isBreak => (mem_of_mem_lines inside isBreak).2 rfl

theorem isTrimmed_lines {indent s : Text} {c : CodePoint} (within : ofChar '\n' ∉ indent)
    (ink : c.isBlank = false)
    (last : ∀ d, (indent ++ c :: s).getLast? = some d → d.isBlank = false) :
    IsTrimmed (lines (indent ++ c :: s)) where
  within := fun line inside isBreak => (mem_of_mem_lines inside isBreak).2 rfl
  first := by
    obtain ⟨line, rest, parts, stays⟩ := exists_lines_cons within ink s
    exact ⟨line, by rw [parts]; rfl, stays⟩
  last := by
    refine ⟨_, getLast?_lines _, ?_⟩
    obtain ⟨d, ends⟩ := Option.isSome_iff_exists.1
      (List.getLast?_isSome.2 (by simp : indent ++ c :: s ≠ []))
    have visible := last d ends
    have other : d ≠ ofChar '\n' := by
      rintro rfl
      exact absurd visible (by decide)
    rw [isBlank, List.all_eq_false]
    exact ⟨d, mem_lastLine ends other, by simp [visible]⟩

theorem IsTrimmed.trim_eq {ls : List Text} (trimmed : IsTrimmed ls) : trimBlankLines ls = ls :=
  trimBy_eq_self trimmed.first trimmed.last

theorem IsTrimmed.append {xs ys : List Text} (front : IsTrimmed xs) (back : IsTrimmed ys) :
    IsTrimmed (xs ++ [] :: ys) where
  within := by
    rw [List.forall_mem_append, List.forall_mem_cons]
    exact ⟨front.within, List.not_mem_nil, back.within⟩
  first := by
    obtain ⟨line, first, stays⟩ := front.first
    exact ⟨line, by rw [List.head?_append, first]; rfl, stays⟩
  last := by
    obtain ⟨line, last, stays⟩ := back.last
    exact ⟨line, by rw [List.getLast?_append, List.getLast?_cons, last]; rfl, stays⟩

theorem IsTrimmed.trimBlankLines_lines {ls : List Text} (trimmed : IsTrimmed ls) :
    trimBlankLines (lines (ofLines ls ++ [ofChar '\n'])) = ls := by
  rw [trimBlankLines_append_break, lines_ofLines trimmed.ne_nil trimmed.within, trimmed.trim_eq]

end Text

/-! ## Bodies behind imports -/

theorem turned_blocksFrom {items : List (List Piece)}
    (others : ∀ ps ∈ items, ∀ p, (Role.ofItem (tokensFrom p ps)).isDirective = false)
    (pre : Preceding) (p : Position) (tail : Text) :
    (blocksFrom pre p tail items).flatMap (Block.turned (Header.bodyPieces false))
      = (blocksFrom pre p tail items).flatMap Block.text := by
  induction items generalizing pre p with
  | nil => rfl
  | cons ps items ih =>
    rw [List.forall_mem_cons] at others
    have other := others.1 p
    rw [blocksFrom, List.flatMap_cons, List.flatMap_cons, ih others.2, Block.turned_eq other,
      Block.text]
    have same (b : Block) : b.bodyPieces false b.pieces = b.pieces := by
      rw [Block.bodyPieces]
      split <;> rfl
    rw [same]
    simp only [Preceding.block]
    rw [after_item other, Preceding.taken_item, List.append_nil]

namespace Passage

variable {pre : Preceding} {gap : Text} {xs ys : List Passage}

theorem isDirective_precede (x : Passage) (p : Position) (gap : Text) :
    (Role.ofItem (tokensFrom p (Piece.precede gap x.pieces))).isDirective = x.isDirective := by
  rw [isDirective, ← role_precede x p gap]
  cases Role.ofItem (tokensFrom p (Piece.precede gap x.pieces)) <;> rfl

theorem exists_of_mem_chain {ps : List Piece} (mem : ps ∈ chain gap ys) :
    ∃ y ∈ ys, ∃ g, ps = Piece.precede g y.pieces := by
  induction ys generalizing gap with
  | nil => cases mem
  | cons y ys ih =>
    rcases List.mem_cons.1 mem with rfl | mem
    · exact ⟨y, List.mem_cons_self, gap, rfl⟩
    · obtain ⟨y', inside, is⟩ := ih mem
      exact ⟨y', List.mem_cons_of_mem _ inside, is⟩

theorem exists_nextGap (gap : Text) (ys : List Passage) (more : ∀ y ∈ ys, y.pieces ≠ []) :
    ∃ s, nextGap (last gap ys) (chain gap ys) = gap ++ s := by
  cases ys with
  | nil => exact ⟨[], (List.append_nil gap).symm⟩
  | cons y ys => exact ⟨_, leadingGap_precede gap (more y List.mem_cons_self)⟩

theorem turned_chain_others (breaks : pre.Breaks gap)
    (others : ∀ y ∈ ys, y.isDirective = false ∧ y.pieces ≠ []) (p : Position) :
    (blocksFrom pre p (last gap ys) (chain gap ys)).flatMap (Block.turned (Header.bodyPieces false))
        ++ restFrom pre p (last gap ys) (chain gap ys) = pre.left gap ++ ys.flatMap text := by
  have more := fun y mem => (others y mem).2
  have items : ∀ ps ∈ chain gap ys, ps ≠ [] ∧
      ∀ p, (Role.ofItem (tokensFrom p ps)).isDirective = false := by
    intro ps mem
    obtain ⟨y, inside, g, rfl⟩ := exists_of_mem_chain mem
    refine ⟨?_, fun p => by rw [isDirective_precede, (others y inside).1]⟩
    obtain ⟨q, qs, split⟩ := List.exists_cons_of_ne_nil (more y inside)
    rw [split]
    exact List.cons_ne_nil _ _
  have whole := text_blocksFrom pre p (last gap ys) fun ps mem => (items ps mem).1
  obtain ⟨s, next⟩ := exists_nextGap gap ys more
  obtain ⟨rest, cut⟩ := taken_begins pre gap
  have left : pre.left gap = rest := by
    rw [Preceding.left]
    conv => lhs; arg 2; rw [← cut]
    exact List.drop_left
  rw [next, breaks.taken_append, source_chain gap more] at whole
  conv at whole => rhs; rw [← cut, List.append_assoc]
  rw [turned_blocksFrom fun ps mem => (items ps mem).2, left]
  exact List.append_cancel_left whole

/-- Of directives on lines of their own, only the lines between them are left. -/
theorem turned_chain (breaks : pre.Breaks gap)
    (directives : ∀ x ∈ xs, x.IsLine ∧ x.behind.EndsLine ∧ x.isDirective = true)
    (others : ∀ y ∈ ys, y.isDirective = false ∧ y.pieces ≠ []) (p : Position) :
    (blocksFrom pre p (last gap (xs ++ ys)) (chain gap (xs ++ ys))).flatMap
          (Block.turned (Header.bodyPieces false))
        ++ restFrom pre p (last gap (xs ++ ys)) (chain gap (xs ++ ys))
      = pre.left gap ++ (xs.flatMap (fun x => x.behind.behindDirective) ++ ys.flatMap text) := by
  induction xs generalizing pre gap p with
  | nil => exact turned_chain_others breaks others p
  | cons x xs ih =>
    rw [List.forall_mem_cons] at directives
    obtain ⟨⟨isLine, ends, directive⟩, later⟩ := directives
    have role := isDirective_precede x p gap
    rw [directive] at role
    have noStray : Role.ofItem (tokensFrom p (Piece.precede gap x.pieces)) ≠ .stray := by
      intro stray
      rw [stray] at role
      cases role
    obtain ⟨own, alone⟩ := breaks.own_eq isLine.within isLine.indent noStray
    have after : pre.after (.ofItem (tokensFrom p (Piece.precede gap x.pieces)))
        (Piece.precede gap x.pieces) = .directive true true := by
      rw [Preceding.after, Preceding.next, if_pos role, leadingGap_precede gap isLine.ne_nil]
      simp only [Preceding.ownsLine, alone, Bool.true_or]
    have ih := @ih (.directive true true) x.behind ⟨ends.ends, .inr ends.line⟩ later
      (positionFrom p (Piece.precede gap x.pieces))
    rw [List.cons_append, chain, last, blocksFrom, restFrom, after, List.flatMap_cons,
      List.append_assoc, ih, Block.turned_directive role]
    simp only [Preceding.block]
    rw [leadingGap_precede gap isLine.ne_nil, breaks.kept_eq own, Preceding.left_directive,
      List.flatMap_cons, List.append_assoc]

end Passage

theorem behindDirective_importPassages (imports : List (List Piece)) :
    (importPassages imports).flatMap (fun x => x.behind.behindDirective)
      = if imports.isEmpty then [] else [ofChar '\n'] := by
  fun_induction importPassages imports with
  | case1 => rfl
  | case2 ps => rfl
  | case3 ps qs imports ih =>
    rw [List.flatMap_cons, ih]
    cases imports <;> rfl

/-- A text of imports on lines of their own, with items behind them that are no directives, is
parsed as these, and its body is what stands behind the imports. -/
theorem exists_parse_importPart {lines : List Text} {imports : List (List Piece)}
    {ys : List Passage} (all : List.Forall₂ IsImportLine lines imports)
    (sound : ∀ y ∈ ys, y.IsSound) (others : ∀ y ∈ ys, y.isDirective = false)
    (plain : (importPart lines ++ ys.flatMap Passage.text).IsPlain)
    (noReturn : ofChar '\r' ∉ importPart lines ++ ys.flatMap Passage.text) :
    ∃ u, parse (importPart lines ++ ys.flatMap Passage.text) = .ok u ∧
      u.Outlines ((imports ++ ys.map Passage.pieces).map (List.map Piece.token)) ∧
      u.bodyLines [] = trimBlankLines (Text.lines (ys.flatMap Passage.text)) := by
  have whole : [] ++ (importPassages imports ++ ys).flatMap Passage.text
      = importPart lines ++ ys.flatMap Passage.text := by
    rw [List.nil_append, List.flatMap_append, text_importPassages all]
  rw [← whole] at plain noReturn ⊢
  obtain ⟨scanned, placed⟩ := Passage.scanned_chain .nil
    (List.forall_mem_append.2 ⟨isSound_importPassages all, sound⟩) plain
  refine ⟨_, parse_eq scanned placed (unifyBreaks_of_notMem noReturn), ?_, ?_⟩
  · have outlines := outlines_ofBlocks ([] ++ (importPassages imports ++ ys).flatMap Passage.text)
      (Passage.chain [] (importPassages imports ++ ys))
      (Passage.last [] (importPassages imports ++ ys))
    have items : (imports ++ ys.map Passage.pieces).map (List.map Piece.token)
        = (importPassages imports ++ ys).map fun x => x.pieces.map Piece.token := by
      conv => lhs; rw [← pieces_importPassages imports, ← List.map_append, List.map_map]
      rfl
    rw [← outlines_bare, bare_itemsFrom, Passage.token_chain, ← items] at outlines
    exact outlines
  · have body := scanned.text_body placed false
    have breaks : Preceding.nothing.Breaks [] := ⟨rfl, .inl rfl⟩
    have turned := Passage.turned_chain breaks (isLine_importPassages all)
      (fun y mem => ⟨others y mem, (sound y mem).ne_nil⟩) .start
    rw [behindDirective_importPassages] at turned
    rw [blocksOf, restOf, turned] at body
    refine body.trans ?_
    rw [show Preceding.nothing.left [] = [] from rfl, List.nil_append]
    generalize imports.isEmpty = none
    refine trimBlankLines_append_lines ?_ ?_ _
    · cases none <;> decide
    · cases none <;> decide

theorem exists_passages {ps : List Piece} {g : Text} {items : List Item} (more : items ≠ [])
    (isGap : IsGap g) (fits : Fits ps g)
    (tokens : ps.map Piece.token = (items.map (List.map Token.bare)).flatten)
    (closed : ∀ item ∈ items, item.IsClosed)
    (solid : ∀ item ∈ items, ∀ t ∈ item, ofChar '\n' ∉ t.value) :
    ∃ ys : List Passage, ys.flatMap Passage.text = source ps ++ g ∧
      ys.map Passage.item = items.map (List.map Token.bare) ∧ ∀ y ∈ ys, y.IsSound := by
  induction items generalizing ps with
  | nil => exact absurd rfl more
  | cons item items ih =>
    rw [List.map_cons, List.flatten_cons] at tokens
    obtain ⟨qs, rs, rfl, here, later⟩ := List.map_eq_append_iff.1 tokens
    rw [List.forall_mem_cons] at closed solid
    obtain ⟨fitsHere, fitsLater⟩ := fits_append.1 fits
    have isClosed : Item.IsClosed (qs.map Piece.token) := by
      rw [here, Item.isClosed_bare]
      exact closed.1
    have sound {behind : Text} (isGap : IsGap behind) : Passage.IsSound ⟨qs, behind⟩ := by
      refine ⟨fitsHere.of_isClosed isClosed, isClosed, isGap, fun p mem => ?_⟩
      have token := List.mem_map_of_mem (f := Piece.token) mem
      rw [here] at token
      obtain ⟨t, inside, same⟩ := List.mem_map.1 token
      have value : p.lexeme = t.value := (congrArg Token.value same).symm
      exact value ▸ solid.1 t inside
    by_cases none : items = []
    · subst none
      obtain rfl := List.map_eq_nil_iff.1 later
      exact ⟨[⟨qs, g⟩], by simp [Passage.text], by simp [Passage.item, here],
        by simpa using sound isGap⟩
    · obtain ⟨ys, text, same, all⟩ := ih none fitsLater later closed.2 solid.2
      refine ⟨⟨qs, []⟩ :: ys, ?_, ?_, List.forall_mem_cons.2 ⟨sound .nil, all⟩⟩
      · simp [Passage.text, text, source_append]
      · rw [List.map_cons, List.map_cons, same, Passage.item, here]

/-! ## Sources again -/

theorem collect_eq_nil {ts : List Token} (quiet : ∀ t ∈ ts, t.opensType none = false)
    (previous : Option Token) : declaredNames.collect previous ts = [] := by
  fun_induction declaredNames.collect previous ts with
  | case1 previous t name ts names isName ih =>
    rw [declaredNames.opensType_of_none (quiet t List.mem_cons_self), Bool.false_and] at isName
    cases isName
  | case2 previous t name ts names other ih =>
    exact ih fun t mem => quiet t (List.mem_cons_of_mem _ mem)
  | case3 => rfl

theorem Text.IsSource.declaresAlike {s : Text} (isSource : s.IsSource) : s.DeclaresAlike where
  names := declaredNames_unifyBreaks (by
    rw [mergeBreaks_of_notMem isSource.noReturn]
    exact isSource.noReturn)
  quiet := by
    intro item mem directive
    have quiet {xs : List Token} {mark : Token} (isMark : mark.isSemicolon = true)
        (quiet : ∀ t ∈ xs, t.opensBrace = false ∧ t.closesBrace = false ∧ t.isSemicolon = false ∧
          ∀ previous, t.opensType previous = false) :
        declaredNames.collect none (xs ++ [mark]) = [] := by
      refine collect_eq_nil (List.forall_mem_append.2
        ⟨fun t mem => (quiet t mem).2.2.2 none, ?_⟩) none
      rw [List.forall_mem_singleton]
      exact Item.opensType_of_not_isKeyword (by rw [(isSeparator_iff.1 isMark).1]; rfl) none
    rcases isSource.declares item mem with package | import_ | ⟨d, sound, rfl⟩
    · obtain ⟨xs, mark, rfl, isMark, all⟩ := package.exists_quiet
      exact quiet isMark all
    · obtain ⟨xs, mark, rfl, isMark, all⟩ := import_.exists_quiet
      exact quiet isMark all
    · rw [sound.role] at directive
      cases directive
  ends := fun item mem =>
    endNames_of_isClosed (isSource.declares item (List.mem_of_getLast? mem)).isClosed

theorem Item.IsImport.bare {item : Item} (isImport : item.IsImport) :
    Item.IsImport (item.map Token.bare) := by
  obtain ⟨keyword, scope, path, wildcard, mark, rfl, isKeyword, isScope, isPath, isWildcard,
    isMark⟩ := isImport
  refine ⟨keyword.bare, scope.map Token.bare, path.map Token.bare, wildcard.map Token.bare,
    mark.bare, by simp, isKeyword, ?_, (isPath_bare path).trans isPath, ?_, isMark⟩
  · rcases isScope with rfl | ⟨t, rfl, kind, value⟩
    · exact .inl rfl
    · exact .inr ⟨t.bare, rfl, kind, value⟩
  · rcases isWildcard with rfl | ⟨dot, star, rfl, isDot, kind, value⟩
    · exact .inl rfl
    · exact .inr ⟨dot.bare, star.bare, rfl, isDot, kind, value⟩

theorem Text.IsSource.exists_importLine {s : Text} {u : CompilationUnit} (isSource : s.IsSource)
    (parsed : parse s = .ok u) {item : Item} {i : Import} (mem : item ∈ s.items)
    (found : item.import? = some i) :
    ∃ ps, IsImportLine i.text ps ∧ Import.ofItem (ps.map Piece.token) = i := by
  obtain ⟨role, rfl⟩ := Item.import?_eq_some found
  have isImport : item.IsImport := by
    rcases isSource.declares item mem with package | import_ | ⟨d, sound, rfl⟩
    · rw [package.role] at role
      cases role
    · exact import_
    · rw [sound.role] at role
      cases role
  obtain ⟨items, tail, scanned, -, -, same⟩ := (isSource.isPlaced parsed).exists_scanned parsed
  have bare := List.mem_map_of_mem (f := List.map Token.bare) mem
  rw [same, bare_itemsFrom] at bare
  obtain ⟨ps, inside, tokens⟩ := List.mem_map.1 bare
  have isBare := isImport.bare
  rw [← tokens] at isBare
  obtain ⟨qs, isLine, pieces⟩ := JavaUnits.exists_importLine isBare
    (fun p isPiece => scanned.fits.isLexed p (List.mem_flatten_of_mem inside isPiece))
    fun p isPiece => by
      have token := List.mem_map_of_mem (f := Piece.token) isPiece
      rw [tokens] at token
      obtain ⟨t, isToken, same⟩ := List.mem_map.1 token
      have value : p.lexeme = t.value := (congrArg Token.value same).symm
      exact value ▸ isSource.solid item mem t isToken
  have same : Import.ofItem (ps.map Piece.token) = Import.ofItem item := by
    rw [tokens, Import.ofItem_bare]
  exact ⟨qs, same ▸ isLine, by rw [pieces, same]⟩

/-- What is left of a source are types without tokens that go over several lines. -/
theorem Text.IsSource.leaves_solid {s : Text} {u : CompilationUnit} (isSource : s.IsSource)
    (parsed : parse s = .ok u) (demoted : Bool) : ∀ item ∈ s.leaves demoted,
      item.IsTypeDeclaration ∧ ∀ t ∈ item, ofChar '\n' ∉ t.value := by
  intro item mem
  refine ⟨isSource.leaves_declares parsed demoted item mem, fun t isToken => ?_⟩
  obtain ⟨item, kept, rfl⟩ := List.mem_map.1 mem
  exact isSource.solid item (List.mem_filter.1 kept).1 t (Item.mem_left isToken)

theorem CompilationUnit.entryPoints_names {u : CompilationUnit} {hs : List Header}
    (headers : u.types.map (fun t => t.header.bare) = hs.map Header.bare) :
    u.entryPoints.map TypeDecl.name
      = (hs.filter fun h => h.declaresMain && h.visibility = .publicAccess).map Header.name := by
  have names (hs : List Header) :
      (hs.filter fun h => h.declaresMain && h.visibility = .publicAccess).map Header.name
        = ((hs.map Header.bare).filter fun h =>
          h.declaresMain && h.visibility = .publicAccess).map Header.name := by
    rw [List.filter_map, List.map_map]
    congr 1
    exact List.filter_congr fun h _ => by rw [Function.comp_apply, h.visibility_bare]; rfl
  rw [names, ← headers, entryPoints, List.filter_map, List.map_map]
  congr 1
  exact List.filter_congr fun t _ => by
    rw [Function.comp_apply, t.header.visibility_bare]
    rfl

namespace Merge

variable {sources : Files} {defined : List Text} {es : List Extract} {c : Choice}

def bodies (c : Choice) : Text :=
  assemble [] ((c.others.filter fun e => !e.demotedBody.isEmpty).map Extract.demotedBody)
    c.chosen.body

theorem content_nil (c : Choice) : (ofChoice [] c).content = bodies c := by
  simp [ofChoice, bodies, Text.sort]

theorem content_eq (es : List Extract) (c : Choice) :
    (ofChoice es c).content = importPart (ofChoice es c).imports ++ bodies c := by
  simp only [ofChoice, bodies, assemble_eq, importPart]
  simp

theorem Extracted.exists_importLines (extracted : Extracted sources defined es)
    (isSource : ∀ file ∈ sources, file.2.IsSource) (c : Choice) :
    ∃ imports, List.Forall₂ IsImportLine (ofChoice es c).imports imports ∧
      ∀ ps ∈ imports, (Import.ofItem (ps.map Piece.token)).isSelf defined = false := by
  obtain ⟨imports, all⟩ := @exists_forall₂ (List Piece) Text
    (fun ps line => IsImportLine line ps ∧ 
      (Import.ofItem (ps.map Piece.token)).isSelf defined = false)
    (ofChoice es c).imports (by
      intro line mem
      obtain ⟨e, inside, i, imported, rfl⟩ := mem_imports.1 mem
      obtain ⟨file, isFile, u, parsed, rfl⟩ := exists_left_of_mem extracted inside
      obtain ⟨declared, other⟩ := List.mem_filter.1 imported
      rw [((isSource file isFile).isPlaced parsed).imports_eq parsed] at declared
      obtain ⟨item, isItem, found⟩ := List.mem_filterMap.1 declared
      obtain ⟨ps, isLine, same⟩ := (isSource file isFile).exists_importLine parsed isItem found
      exact ⟨ps, isLine, by rw [same]; simpa using other⟩)
  refine ⟨imports, all.flip.imp fun _ _ is => is.1, fun ps mem => ?_⟩
  obtain ⟨line, -, -, other⟩ := exists_right_of_mem all mem
  exact other

theorem Extracted.reads_bodies (extracted : Extracted sources defined es)
    (legible : ∀ file ∈ sources, file.2.IsLegible) (all : c.all = es) {before after : Files}
    {chosen : Text × Text} (split : sources = before ++ chosen :: after)
    (others : Extracted (before ++ after) defined c.others)
    (taken : Extracted [chosen] defined [c.chosen]) :
    Reads (bodies c)
      ((((before ++ after).flatMap fun file : Text × Text => file.2.leaves true)
        ++ chosen.2.leaves false).map (List.map Token.bare)).flatten := by
  have text (e : Extract) (mem : e ∈ c.all) (demoted : Bool) :
      Reads (e.text demoted) (read (e.text demoted)) := by
    obtain ⟨file, inside, u, parsed, rfl⟩ := exists_left_of_mem extracted (all ▸ mem)
    have reads := (legible file inside).reads_text parsed demoted file.1 defined
    rwa [← reads.read_eq] at reads
  have reads := @Merge.reads_content [] c (by simp [ofChoice, Text.sort])
    (fun e mem => text e (Choice.mem_all.2 (.inl mem)) true)
    (text c.chosen (Choice.mem_all.2 (.inr rfl)) false)
  obtain ⟨chosenInside, inside⟩ := mem_of_split split
  have othersRead := others.read_text (fun file mem => legible file (inside file mem)) true
  have takenRead := taken.read_text (by simpa using legible chosen chosenInside) false
  rw [List.flatMap_singleton, List.flatMap_singleton] at takenRead
  rw [othersRead, takenRead, show (ofChoice [] c).imports = [] by simp [ofChoice, Text.sort],
    List.flatMap_nil, List.nil_append, ← List.flatten_append, ← List.map_append, content_nil]
    at reads
  exact reads

/-- What is written behind the imports begins and ends with lines that show something. -/
theorem assemble_trimmed {others : List (List Text)} {main : List Text}
    (others' : ∀ ls ∈ others, IsTrimmed ls) (main' : IsTrimmed main) :
    ∃ ls, IsTrimmed ls ∧ assemble [] others main = ofLines ls ++ [ofChar '\n'] := by
  induction others with
  | nil => exact ⟨main, main', by simp [assemble_eq]⟩
  | cons xs others ih =>
    rw [List.forall_mem_cons] at others'
    obtain ⟨ls, trimmed, same⟩ := ih others'.2
    refine ⟨xs ++ [] :: ls, others'.1.append trimmed, ?_⟩
    rw [assemble_eq] at same ⊢
    rw [ofLines_append xs (by simp), flatMap_break others'.1.ne_nil, ofLines_cons [] trimmed.ne_nil]
    simp only [List.flatMap_nil, List.isEmpty_nil, if_true, List.nil_append, List.flatMap_cons,
      List.append_assoc] at same ⊢
    rw [same]
    simp

theorem Extracted.bodies_trimmed (extracted : Extracted sources defined es) (all : c.all = es)
    (more : c.chosen.body ≠ []) : ∃ ls, IsTrimmed ls ∧ bodies c = ofLines ls ++ [ofChar '\n'] := by
  have trimmed (e : Extract) (mem : e ∈ c.all) : (e.demotedBody ≠ [] → IsTrimmed e.demotedBody) ∧
      (e.body ≠ [] → IsTrimmed e.body) := by
    obtain ⟨file, -, u, -, rfl⟩ := exists_left_of_mem extracted (all ▸ mem)
    exact ⟨isTrimmed_trimBlankLines, isTrimmed_trimBlankLines⟩
  refine assemble_trimmed (fun ls mem => ?_) ((trimmed _ (Choice.mem_all.2 (.inr rfl))).2 more)
  obtain ⟨e, inside, rfl⟩ := List.mem_map.1 mem
  obtain ⟨inside, some⟩ := List.mem_filter.1 inside
  exact (trimmed e (Choice.mem_all.2 (.inl inside))).1 (by simpa using some)

theorem Extracted.leaves_ne_nil {chosen : Text × Text} {e : Extract}
    (taken : Extracted [chosen] defined [e]) (isSource : chosen.2.IsSource)
    (candidate : e.isCandidate = true) : chosen.2.leaves false ≠ [] ∧ e.body ≠ [] := by
  obtain ⟨⟨u, parsed, rfl⟩, -⟩ := List.forall₂_cons.1 taken
  have whole := isSource.isWhole parsed
  have leaves : chosen.2.leaves false ≠ [] := by
    intro none
    have headers := (isSource.isPlaced parsed).headers_eq parsed
    rw [← headers_leaves, none, List.filterMap_nil, List.map_eq_nil_iff] at headers
    simp [Extract.isCandidate, Extract.ofUnit, CompilationUnit.entryPoints, headers] at candidate
  refine ⟨leaves, fun none => ?_⟩
  have reads := whole.legible.reads_text parsed false chosen.1 defined
  rw [← List.map_flatMap, ← flatten_leaves, Extract.text, if_neg (by simp), none] at reads
  have tokens := reads.unique opens_break.reads
  obtain ⟨item, items, split⟩ := List.exists_cons_of_ne_nil leaves
  have closed := whole.isClosed_leaves parsed false item (by simp [split])
  rw [split] at tokens
  simp [closed.ne_nil] at tokens

/-- The entry points of the content of a merge are those of the source that is chosen. -/
theorem Extracted.entryPoints_content (extracted : Extracted sources defined es)
    (isSource : ∀ file ∈ sources, file.2.IsSource) {before after : Files}
    {chosen : Text × Text} (split : sources = before ++ chosen :: after) {u : CompilationUnit}
    (headers : u.types.map (fun t => t.header.bare)
        = (((before ++ after).flatMap fun file : Text × Text =>
            (file.2.leaves true).filterMap Item.header?)
          ++ (chosen.2.leaves false).filterMap Item.header?).map Header.bare) :
    u.entryPoints.map TypeDecl.name = chosen.2.entryPoints := by
  obtain ⟨chosenInside, inside⟩ := mem_of_split split
  have hidden : ((before ++ after).flatMap fun file : Text × Text =>
      (file.2.leaves true).filterMap Item.header?).filter
        (fun h => h.declaresMain && h.visibility = .publicAccess) = [] := by
    refine List.filter_eq_nil_iff.2 fun h mem => ?_
    obtain ⟨file, isFile, mem⟩ := List.mem_flatMap.1 mem
    have isOne := inside file isFile
    obtain ⟨e, -, u', parsed, -⟩ := exists_right_of_mem extracted isOne
    simp [((isSource file isOne).headers_demoted parsed).2 h mem]
  obtain ⟨e, -, main, parsed, -⟩ := exists_right_of_mem extracted chosenInside
  rw [entryPoints_names headers, List.filter_append, hidden, List.nil_append,
    ← entryPoints_names (u := main) ?_, Text.entryPoints, parsed]
  · rfl
  · rw [headers_leaves, ← ((isSource chosen chosenInside).isPlaced parsed).headers_eq parsed,
      List.map_map]
    rfl

theorem Extracted.exists_bodies (extracted : Extracted sources defined es)
    (isSource : ∀ file ∈ sources, file.2.IsSource) (all : c.all = es) {before after : Files}
    {chosen : Text × Text} (split : sources = before ++ chosen :: after)
    (others : Extracted (before ++ after) defined c.others)
    (taken : Extracted [chosen] defined [c.chosen]) (candidate : c.chosen.isCandidate = true) :
    ∃ (ls : List Text) (ys : List Passage), IsTrimmed ls ∧ bodies c = ofLines ls ++ [ofChar '\n'] ∧
      ys.flatMap Passage.text = bodies c ∧
      ∀ y ∈ ys, y.IsSound ∧ y.isDirective = false ∧ y.item.import? = none := by
  obtain ⟨isChosen, inside⟩ := mem_of_split split
  have whole (file : Text × Text) (mem : file ∈ sources) :
      file.2.IsWhole ∧ ∀ demoted, ∀ item ∈ file.2.leaves demoted,
        item.IsTypeDeclaration ∧ ∀ t ∈ item, ofChar '\n' ∉ t.value := by
    obtain ⟨e, -, u, parsed, -⟩ := exists_right_of_mem extracted mem
    exact ⟨(isSource file mem).isWhole parsed, (isSource file mem).leaves_solid parsed⟩
  have reads := extracted.reads_bodies (fun file mem => (whole file mem).1.legible) all split others
    taken
  generalize listed : ((before ++ after).flatMap fun file : Text × Text => file.2.leaves true)
    ++ chosen.2.leaves false = items at reads
  have types : ∀ item ∈ items, item.IsTypeDeclaration ∧ ∀ t ∈ item, ofChar '\n' ∉ t.value := by
    rw [← listed]
    intro item mem
    rw [List.mem_append, List.mem_flatMap] at mem
    rcases mem with ⟨file, isFile, mem⟩ | mem
    · exact (whole file (inside file isFile)).2 true item mem
    · exact (whole chosen isChosen).2 false item mem
  obtain ⟨leaves, body⟩ := taken.leaves_ne_nil (isSource chosen isChosen) candidate
  have more : items ≠ [] := by
    rw [← listed]
    exact List.append_ne_nil_of_right_ne_nil _ leaves
  obtain ⟨ls, trimmed, content⟩ := extracted.bodies_trimmed all body
  rw [content] at reads
  obtain ⟨ps, g, text, isGap, fits, -, -, tokens⟩ := reads.opens
  obtain ⟨ys, ysText, ysItems, sound⟩ := exists_passages more isGap (by simpa using fits []) tokens
    (fun item mem => Item.IsDeclaration.isClosed (.inr (.inr (types item mem).1)))
    fun item mem => (types item mem).2
  refine ⟨ls, ys, trimmed, content, by rw [content, text, ysText], fun y mem => ⟨sound y mem, ?_⟩⟩
  have isItem := List.mem_map_of_mem (f := Passage.item) mem
  rw [ysItems] at isItem
  obtain ⟨item, isItem, bare⟩ := List.mem_map.1 isItem
  obtain ⟨d, sound, rfl⟩ := (types item isItem).1
  rw [Passage.isDirective, ← bare, Role.ofItem_bare, Item.import?_bare, Item.import?, sound.role]
  exact ⟨rfl, rfl⟩

/-- The content of a merge of sources is parsed as the imports that are written, none of which the
types make superfluous, and its body is what stands behind them. -/
theorem Extracted.parse_content_again (extracted : Extracted sources defined es)
    (isSource : ∀ file ∈ sources, file.2.IsSource) (all : c.all = es) {before after : Files}
    {chosen : Text × Text} (split : sources = before ++ chosen :: after)
    (others : Extracted (before ++ after) defined c.others)
    (taken : Extracted [chosen] defined [c.chosen]) (candidate : c.chosen.isCandidate = true)
    {u : CompilationUnit} (parsed : parse (ofChoice es c).content = .ok u) :
    (∀ i ∈ u.imports, i.isSelf defined = false) ∧
      ofLines (u.bodyLines []) ++ [ofChar '\n'] = bodies c := by
  have legible : ∀ file ∈ sources, file.2.IsLegible := by
    intro file mem
    obtain ⟨e, -, u, parsed, -⟩ := exists_right_of_mem extracted mem
    exact ((isSource file mem).isWhole parsed).legible
  obtain ⟨ls, ys, trimmed, content, text, types⟩ :=
    extracted.exists_bodies isSource all split others taken candidate
  obtain ⟨imports, lines, apart⟩ := extracted.exists_importLines isSource c
  have plain := (extracted.reads_content legible all).isPlain
  have noReturn := extracted.notMem_content legible all
  rw [content_eq, ← text] at plain noReturn parsed
  obtain ⟨u', parsed', outlines, body⟩ := exists_parse_importPart lines
    (fun y mem => (types y mem).1) (fun y mem => (types y mem).2.1) plain noReturn
  obtain rfl := Except.ok.inj (parsed.symm.trans parsed')
  refine ⟨fun i mem => ?_, ?_⟩
  · rw [outlines.imports] at mem
    obtain ⟨item, isItem, found⟩ := List.mem_filterMap.1 mem
    obtain ⟨ps, inside, rfl⟩ := List.mem_map.1 isItem
    rcases List.mem_append.1 inside with isImport | isType
    · obtain ⟨-, rfl⟩ := Item.import?_eq_some found
      exact apart ps isImport
    · obtain ⟨y, isPassage, rfl⟩ := List.mem_map.1 isType
      rw [show Item.import? (y.pieces.map Piece.token) = none from (types y isPassage).2.2] at found
      cases found
  · rw [body, text, content, trimmed.trimBlankLines_lines]

end Merge

/-- Merging what a merge of sources has written changes nothing: the content is the same again, with
the same imports and the same entry point, and no other type is demoted. -/
theorem merge_again {sources : Files} {asked : Option Text} {configured : Text} {r : Merged}
    (isSource : ∀ file ∈ sources, file.2.IsSource)
    (merged : merge sources asked configured = .ok r) (path : Text) {p : Policy}
    {asked' : Option Text} {configured' : Text}
    (policy : Merge.policy asked' configured' = .ok p) :
    ∃ r', merge [(path, r.content)] asked' configured' = .ok r' ∧ r'.content = r.content ∧
      r'.imports = r.imports ∧ r'.mainClassName = r.mainClassName ∧ r'.otherClassNames = [] ∧
      r'.demotedEntryPoints = [] := by
  obtain ⟨q, defined, es, c, -, names, extracted, suits, rfl⟩ := merge_eq_ok merged
  have legible : ∀ file ∈ sources, file.2.IsLegible := by
    intro file mem
    obtain ⟨e, -, u, parsed, -⟩ := exists_right_of_mem extracted mem
    exact ((isSource file mem).isWhole parsed).legible
  obtain ⟨before, chosen, after, split, chooses, others, taken⟩ := extracted.exists_chooses suits
  obtain ⟨u, parsed, -, imports, headers⟩ :=
    extracted.parse_sources isSource suits.all split others taken
  obtain ⟨apart, body⟩ := extracted.parse_content_again isSource suits.all split others taken
    suits.candidate parsed
  obtain ⟨again, declared, same⟩ := extracted.declaredNames_content legible
    (fun file mem => (isSource file mem).declaresAlike) names suits.all
  have main : (u.entryPoints.map TypeDecl.name).head?
      = some (Merge.ofChoice es c).mainClassName := by
    rw [extracted.entryPoints_content isSource split headers, chooses.main]
  -- What is taken from the content: all its imports, its entry point and its body.
  let e := Extract.ofUnit path again u
  have kept : e.imports = u.imports := List.filter_eq_self.2 fun i mem => by
    rw [Import.isSelf_congr same, apart i mem, Bool.not_false]
  have isMain : e.mainClassName = some (Merge.ofChoice es c).mainClassName := by
    rw [← main, List.head?_map]
    rfl
  have candidate : e.isCandidate = true := by
    rw [Extract.isCandidate, isMain]
    rfl
  have found : Merge.definedNames [(path, (Merge.ofChoice es c).content)] = .ok again := by
    refine bind_eq_ok.2 ⟨[again], mapM_eq_ok.2 (.cons ?_ .nil), by simp; rfl⟩
    simp only [declared]
  refine ⟨_, merge_of_extracted policy (by simp) found (.cons ⟨u, parsed, rfl⟩ .nil)
    (@Merge.Choice.make_of_alone [] [] e p candidate (by simp)), ?_⟩
  have lines : (Merge.ofChoice [e] ⟨[], e, []⟩).imports = (Merge.ofChoice es c).imports := by
    have nodup : (Merge.ofChoice es c).imports.Nodup :=
      (Text.perm_sort _).nodup_iff.2 (nodup_eraseDups _)
    rw [Merge.ofChoice, List.flatMap_singleton, kept, imports, eraseDups_of_nodup nodup,
      Merge.ofChoice, Text.sort_sort]
  refine ⟨?_, lines, ?_, rfl, rfl⟩
  · rw [Merge.content_eq, lines, Merge.content_eq es c]
    congr 1
    rw [← body]
    exact (Merge.assemble_eq [] [] _).trans (by simp [e, Extract.ofUnit])
  · rw [Merge.ofChoice, isMain]
    rfl

/-- The content of a merge under one policy merged again under another. -/
theorem merge_again_neighbours : (∀ file ∈ neighbours, file.2.IsSource) ∧
    ∃ r, merge neighbours none "last" = .ok r ∧
    ∃ r', merge [("Out.java", r.content)] (some "fail") "last" = .ok r' ∧ r'.content = r.content ∧
      r'.imports = r.imports ∧ r'.mainClassName = r.mainClassName ∧ r'.otherClassNames = [] ∧
      r'.demotedEntryPoints = [] := by
  obtain ⟨r, merged⟩ : ∃ r, merge neighbours none "last" = .ok r := by
    apply exists_eq_ok
    rw [neighbours, ofString_ofList, ofString_ofList, ofString_ofList, ofString_ofList]
    decide +kernel
  have policy : Merge.policy (some "fail") "last" = .ok .fail := by decide +kernel
  exact ⟨isSource_neighbours, r, merged, merge_again isSource_neighbours merged _ policy⟩

end JavaUnits
