import JavaUnits.Proofs.Passages

/-!
Sources of one public type, with nothing before it but directives and blanks, and nothing behind it
but comments. What a merge takes from such a source is its type's declaration.
-/

namespace JavaUnits

open CodePoint Token Scan Text CompilationUnit

/-! ## Directives before a type -/

theorem mem_kept {pre : Preceding} {role : Role} {gap : Text} {c : CodePoint}
    (mem : c ∈ pre.kept role gap) : c ∈ gap :=
  List.mem_of_mem_take (List.mem_of_mem_drop mem)

theorem lastLine_of_getLast? {s : Text} (ends : s = [] ∨ s.getLast? = some (ofChar '\n')) :
    s.lastLine = [] := by
  rcases ends with rfl | last
  · rfl
  · obtain ⟨init, rfl⟩ := List.getLast?_eq_some_iff.1 last
    rw [lastLine_append, if_pos (by decide)]
    decide

/-- Whether an item behind the gap begins its line, or follows what stands before it with nothing
but spaces and tabs between. -/
def IsApart (gap : Text) : Prop :=
  ofChar '\n' ∈ gap ∨ ∀ c ∈ gap, c.isSpaceOrTab = true

/-- Spaces and tabs are cut out with the directive before them. -/
theorem Preceding.kept_of_spaces {gap : Text} (spaces : ∀ c ∈ gap, c.isSpaceOrTab = true)
    (owns reaches : Bool) (role : Role) : (directive owns reaches).kept role gap = [] := by
  have whole := List.takeWhile_append_dropWhile (p := isSpaceOrTab) (l := gap)
  have all := List.dropWhile_eq_nil_iff.2 spaces
  rw [all, List.append_nil] at whole
  have taken : (directive owns reaches).taken gap = gap := by
    simp [Preceding.taken, all, whole]
  have split := congrArg List.length (gap_split (directive owns reaches) role gap)
  rw [taken, List.length_append, List.length_append] at split
  exact List.length_eq_zero_iff.1 (by omega)

/-- Whether the text that is kept up to a gap is blank and ends a line, or will end one with the
next line break, which is kept then. -/
structure Preceding.Clears (pre : Preceding) (front : Text) : Prop where
  directive : pre ≠ .item
  blank : ∀ c ∈ front, c.isBlank = true
  ends : front.lastLine = [] ∨ pre = .directive false false

namespace Preceding.Clears

variable {pre : Preceding} {role : Role} {front gap : Text} {ps : List Piece}

theorem blank_kept (clears : pre.Clears front) (blank : ∀ c ∈ gap, c.isBlank = true) :
    ∀ c ∈ front ++ pre.kept role gap, c.isBlank = true :=
  List.forall_mem_append.2 ⟨clears.blank, fun c mem => blank c (mem_kept mem)⟩

theorem lastLine_kept (clears : pre.Clears front) (own : pre.own role gap = gap.lastLine)
    (fresh : pre = .nothing ∨ ofChar '\n' ∈ gap) :
    lastLine (front ++ pre.kept role gap) = [] := by
  rcases JavaUnits.kept_ends own with none | ends
  · rw [none, List.append_nil]
    refine clears.ends.resolve_right fun stale => ?_
    -- The break goes neither with the directive before it nor with the item behind it.
    have mem := fresh.resolve_left (by simp [stale])
    rw [← gap_split pre role gap, none, own, stale, List.nil_append, List.mem_append] at mem
    refine mem.elim (fun mem => ?_) (break_notMem_lastLine gap)
    exact absurd (List.mem_takeWhile_imp (by simpa [taken] using mem)) (by decide)
  · exact lastLine_of_getLast? (.inr (by rw [List.getLast?_append, ends, Option.some_or]))

theorem lastLine_fresh (clears : pre.Clears front) (blank : ∀ c ∈ gap, c.isBlank = true)
    (fresh : pre.isFresh gap = true) (directive : role.isDirective = true) :
    lastLine (front ++ pre.kept role gap) = [] := by
  have alone : pre.isAlone gap = true := by
    rw [isAlone, fresh, Bool.true_and]
    exact List.all_eq_true.2 fun c mem => blank c ((lastLine_ends gap).subset mem)
  refine clears.lastLine_kept ?_ (by simpa [isFresh] using fresh)
  cases role <;> first | exact if_pos alone | cases directive

theorem lastLine_apart (clears : pre.Clears front) (blank : ∀ c ∈ gap, c.isBlank = true)
    (apart : IsApart gap) (directive : role.isDirective = true) (ends : front.lastLine = []) :
    lastLine (front ++ pre.kept role gap) = [] := by
  by_cases fresh : pre.isFresh gap = true
  · exact clears.lastLine_fresh blank fresh directive
  · have stale : pre ≠ .nothing ∧ ofChar '\n' ∉ gap := by simpa [isFresh] using fresh
    cases pre with
    | nothing => exact absurd rfl stale.1
    | item => exact absurd rfl clears.directive
    | directive owns reaches =>
      rw [kept_of_spaces (apart.resolve_left stale.2), List.append_nil, ends]

/-- Directives that are each on one line may have any blanks between them. -/
theorem lastLine_flat (clears : pre.Clears front) (blank : ∀ c ∈ leadingGap ps, c.isBlank = true)
    (flat : ofChar '\n' ∉ inkText ps) (directive : role.isDirective = true) :
    lastLine (front ++ pre.kept role (leadingGap ps)) = [] ∨
      pre.after role ps = .directive false false := by
  by_cases fresh : pre.isFresh (leadingGap ps) = true
  · exact .inl (clears.lastLine_fresh blank fresh directive)
  · have stale : pre.isAlone (leadingGap ps) = false := by
      rw [isAlone, Bool.eq_false_iff.2 fresh, Bool.false_and]
    by_cases owns : pre.ownsLine (leadingGap ps) = true
    · -- The directive before reaches this line, so that nothing is kept between the two.
      left
      cases pre with
      | nothing => simp [ownsLine, stale] at owns
      | item => exact absurd rfl clears.directive
      | directive before reaches =>
        simp only [ownsLine, stale, Bool.false_or, Bool.and_eq_true] at owns
        rw [kept_of_spaces (List.all_eq_true.1 owns.2), List.append_nil]
        refine clears.ends.resolve_right fun same => ?_
        rw [(Preceding.directive.inj same).2] at owns
        exact absurd owns.1 (by decide)
    · right
      rw [Preceding.after, Preceding.next, if_pos directive, stale, Bool.eq_false_iff.2 owns,
        Bool.eq_false_iff.2 (mt List.contains_iff_mem.1 flat), Bool.or_false]

theorem after (clears : pre.Clears front) (blank : ∀ c ∈ leadingGap ps, c.isBlank = true)
    (directive : role.isDirective = true)
    (ends : lastLine (front ++ pre.kept role (leadingGap ps)) = [] ∨
      pre.after role ps = .directive false false) :
    (pre.after role ps).Clears (front ++ pre.kept role (leadingGap ps)) := by
  refine ⟨?_, clears.blank_kept blank, ends⟩
  rw [Preceding.after, Preceding.next, if_pos directive]
  exact Preceding.noConfusion

end Preceding.Clears

/-- The blocks behind directives, with what each of these preserves of the text that is kept. -/
theorem exists_blocks_behind {ds : List (List Piece)} {Holds : Preceding → Text → Prop}
    (directives : ∀ ps ∈ ds, (Role.ofItem (ps.map Piece.token)).isDirective = true)
    (step : ∀ ps ∈ ds, ∀ (pre : Preceding) (role : Role) (front : Text), role.isDirective = true →
      Holds pre front → Holds (pre.after role ps) (front ++ pre.kept role (leadingGap ps)))
    {pre : Preceding} {front : Text} (holds : Holds pre front) (p : Position) (tail : Text)
    (items : List (List Piece)) :
    ∃ pre' p' bs, blocksFrom pre p tail (ds ++ items) = bs ++ blocksFrom pre' p' tail items ∧
      restFrom pre p tail (ds ++ items) = restFrom pre' p' tail items ∧
      (ds = [] → pre' = pre) ∧ (∀ b ∈ bs, b.role.isDirective = true) ∧
      Holds pre' (front ++ bs.flatMap Block.kept) := by
  induction ds generalizing pre p front with
  | nil => exact ⟨pre, p, [], rfl, rfl, fun _ => rfl, by simp, by simpa using holds⟩
  | cons ps ds ih =>
    rw [List.forall_mem_cons] at directives step
    have role : (Role.ofItem (tokensFrom p ps)).isDirective = true := by
      have same := Role.ofItem_bare (tokensFrom p ps)
      have directive := directives.1
      rw [← bare_tokensFrom p, same] at directive
      cases found : Role.ofItem (tokensFrom p ps) <;>
        simp_all [Role.bare, Role.isDirective]
    obtain ⟨pre', p', bs, blocks, rest, -, isDirective, last⟩ :=
      ih directives.2 step.2 (step.1 pre _ front role holds) (positionFrom p ps)
    refine ⟨pre', p', pre.block (tokensFrom p ps) (.ofItem (tokensFrom p ps)) ps
      (nextGap tail (ds ++ items)) :: bs, ?_, rest, by simp,
      List.forall_mem_cons.2 ⟨role, isDirective⟩, ?_⟩
    · rw [List.cons_append, blocksFrom, blocks, List.cons_append]
    · rw [List.flatMap_cons, ← List.append_assoc]
      exact last

/-- Before what follows directives only blanks are kept. They are whole lines if no other blanks
than spaces and tabs part two directives of one line. -/
theorem exists_blocks_cleared {ds : List (List Piece)}
    (directives : ∀ ps ∈ ds, (Role.ofItem (ps.map Piece.token)).isDirective = true)
    (blank : ∀ ps ∈ ds, ∀ c ∈ leadingGap ps, c.isBlank = true)
    (apart : (∀ ps ∈ ds, IsApart (leadingGap ps)) ∨ ∀ ps ∈ ds, ofChar '\n' ∉ inkText ps)
    (tail : Text) (items : List (List Piece)) :
    ∃ pre p bs, blocksOf (ds ++ items) tail = bs ++ blocksFrom pre p tail items ∧
      restOf (ds ++ items) tail = restFrom pre p tail items ∧
      (ds = [] → pre = .nothing) ∧ (∀ b ∈ bs, b.role.isDirective = true) ∧
      pre.Clears (bs.flatMap Block.kept) ∧
      ((∀ ps ∈ ds, IsApart (leadingGap ps)) → lastLine (bs.flatMap Block.kept) = []) := by
  refine @exists_blocks_behind ds (fun pre front => pre.Clears front ∧
    ((∀ ps ∈ ds, IsApart (leadingGap ps)) → front.lastLine = [])) directives ?_ .nothing []
    ⟨⟨Preceding.noConfusion, by simp, .inl rfl⟩, fun _ => rfl⟩ .start tail items
  intro ps mem pre role front directive ⟨clears, ends⟩
  have kept (all : ∀ ps ∈ ds, IsApart (leadingGap ps)) :=
    clears.lastLine_apart (blank ps mem) (all ps mem) directive (ends all)
  refine ⟨clears.after (blank ps mem) directive ?_, kept⟩
  rcases apart with all | flat
  · exact .inl (kept all)
  · exact clears.lastLine_flat (blank ps mem) (flat ps mem) directive

theorem partsFrom_append_directives {bs : List Block}
    (directives : ∀ b ∈ bs, b.role.isDirective = true) (rest : Text) (later : List Block) :
    partsFrom rest (bs ++ later) = partsFrom rest later := by
  induction bs with
  | nil => rfl
  | cons b bs ih =>
    rw [List.forall_mem_cons] at directives
    rw [List.cons_append, Block.partsFrom_of_isType_false, ih directives.2]
    have directive := directives.1
    cases role : b.role <;> simp_all [Role.isDirective, Role.isType]

/-! ## Sources of one type -/

/-- A source of one type: the directives, the blanks above the type, and the type's declaration with
what stands behind it. -/
structure Single where
  directives : List (List Piece)
  above : Text
  type : Written
  declared : TypeSyntax

namespace Single

def pieces (x : Single) : List Piece :=
  x.directives.flatten ++ Piece.precede x.above x.type.pieces

def text (x : Single) : Text :=
  source x.pieces ++ x.type.trailing

def name (x : Single) : Text :=
  x.declared.header.name

def file (x : Single) : Text × Text :=
  (x.name ++ sourceExtension, x.text)

/-- Whether the text is scanned as its parts, which have no escapes, no carriage returns and no
literals that go over several lines, and the parts are what they are said to be. -/
structure IsSound (x : Single) : Prop where
  ran : Scan.run x.text = (x.pieces, .done x.type.trailing)
  plain : x.text.IsPlain
  noReturn : ofChar '\r' ∉ x.text
  solid : ∀ p ∈ x.pieces, ofChar '\n' ∉ p.lexeme
  directives : ∀ ps ∈ x.directives,
    Item.IsPackage (ps.map Piece.token) ∨ Item.IsImport (ps.map Piece.token)
  blank : ∀ ps ∈ x.directives, ∀ c ∈ leadingGap ps, c.isBlank = true
  /-- Blanks that are neither spaces nor tabs are not cut out between two directives of one line.
  They go with the end of that line, which a directive that goes over several lines may take
  away. -/
  apart : (∀ ps ∈ x.directives, IsApart (leadingGap ps)) ∨
    ∀ ps ∈ x.directives, ofChar '\n' ∉ inkText ps
  above : ∀ c ∈ x.above, c.isBlank = true
  /-- The type begins a line. -/
  begins : x.above.lastLine = []
  line : x.directives = [] ∨ ofChar '\n' ∈ x.above
  indent : ∀ c ∈ leadingGap x.type.pieces, c.isBlank = true
  within : ofChar '\n' ∉ leadingGap x.type.pieces
  declares : x.type.Declares x.declared
  isPublic : x.declared.header.visibility = .publicAccess

/-- What is left of the declaration in a body, which may be demoted. -/
def left (demoted : Bool) (x : Single) : Written :=
  if demoted then x.type.hidden else x.type

/-- The lines that are left of the declaration, without the blank ones at either end. -/
def taken (demoted : Bool) (x : Single) : List Text :=
  trimBlankLines (lines (x.left demoted).text)

variable {x : Single}

theorem trailing_left (demoted : Bool) (x : Single) :
    (x.left demoted).trailing = x.type.trailing := by
  cases demoted
  · rfl
  · exact x.type.trailing_hidden

def items (x : Single) : List (List Piece) :=
  x.directives ++ [Piece.precede x.above x.type.pieces]

theorem flatten_items (x : Single) : x.items.flatten = x.pieces := by
  rw [items, List.flatten_append, List.flatten_singleton, pieces]

namespace IsSound

theorem fits (sound : x.IsSound) : Fits x.pieces x.type.trailing :=
  fits_of_run sound.ran

theorem isTail (sound : x.IsSound) : IsTail x.type.trailing :=
  isTail_of_run sound.ran

theorem declaration (sound : x.IsSound) :
    ∀ ps ∈ x.items, Item.IsDeclaration (ps.map Piece.token) := by
  intro ps mem
  rcases List.mem_append.1 mem with mem | mem
  · rcases sound.directives ps mem with package | import_
    · exact .inl package
    · exact .inr (.inl import_)
  · rw [List.mem_singleton.1 mem, token_precede, sound.declares.tokens]
    exact .inr (.inr ⟨_, sound.declares.sound, rfl⟩)

theorem scanned (sound : x.IsSound) :
    Scanned x.text x.items x.type.trailing ∧ Placed x.text x.items.flatten := by
  have plain := sound.plain
  rw [text, ← flatten_items] at plain ⊢
  refine ⟨scanned_of_closed plain (x.flatten_items ▸ sound.fits) sound.isTail fun ps mem =>
    (sound.declaration ps mem).isClosed, placed_of_noBreak ?_ _⟩
  rw [flatten_items]
  exact sound.solid

theorem exists_blocks (sound : x.IsSound) : ∃ bs b h, b.role = .type h ∧
    blocksOf x.items x.type.trailing = bs ++ [b] ∧ b.pieces = x.type.pieces ∧
    restOf x.items x.type.trailing = x.type.trailing ∧
    (∀ b ∈ bs, b.role.isDirective = true) ∧
    (∀ c ∈ (bs ++ [b]).flatMap Block.kept, c.isBlank = true) ∧
    lastLine ((bs ++ [b]).flatMap Block.kept) = [] := by
  have directives : ∀ ps ∈ x.directives,
      (Role.ofItem (ps.map Piece.token)).isDirective = true := by
    intro ps mem
    rcases sound.directives ps mem with package | import_
    · rw [package.role]; rfl
    · rw [import_.role]; rfl
  obtain ⟨pre, p, bs, blocks, rest, begins, all, clears, -⟩ := exists_blocks_cleared directives
    sound.blank sound.apart x.type.trailing [Piece.precede x.above x.type.pieces]
  have more := sound.declares.ne_nil
  have breaks : pre.Breaks x.above := by
    refine ⟨sound.begins, ?_⟩
    rcases sound.line with none | mem
    · exact .inl (begins none)
    · exact .inr mem
  obtain ⟨h, role⟩ :
      ∃ h, Role.ofItem (tokensFrom p (Piece.precede x.above x.type.pieces)) = .type h := by
    have bare := x.type.passage.role_precede p x.above
    rw [sound.declares.role] at bare
    cases found : Role.ofItem (tokensFrom p (Piece.precede x.above x.type.passage.pieces)) with
    | type h => exact ⟨h, found⟩
    | stray => simp [found, Role.bare] at bare
    | package => simp [found, Role.bare] at bare
    | importDecl => simp [found, Role.bare] at bare
  have own := (breaks.own_eq sound.within sound.indent (nofun : Role.type h ≠ .stray)).1
  have leading := Passage.leadingGap_precede x.above more
  refine ⟨bs, _, h, role, blocks, ?_, ?_, all, ?_, ?_⟩
  · simp only [Preceding.block, role]
    rw [leading, own, Passage.regap_precede]
  · rw [items, rest, restFrom, restFrom, role, after_item rfl]
    simp
  · rw [List.flatMap_append, List.flatMap_singleton, Preceding.block, leading]
    exact clears.blank_kept (List.forall_mem_append.2 ⟨sound.above, sound.indent⟩)
  · rw [List.flatMap_append, List.flatMap_singleton, Preceding.block, leading, role]
    refine clears.lastLine_kept ?_ (breaks.fresh.imp_right (List.mem_append_left _))
    rw [own, lastLine_append, if_neg sound.within, sound.begins, List.nil_append]

/-- What the source is parsed as. Its body is the declaration. -/
theorem exists_parse (sound : x.IsSound) : ∃ u, parse x.text = .ok u ∧
    u.Outlines (x.directives.map (List.map Piece.token) ++ [x.declared.tokens]) ∧
    ∀ demoted, u.body demoted = x.taken demoted := by
  obtain ⟨scanned, placed⟩ := sound.scanned
  obtain ⟨bs, b, h, role, blocks, pieces, rest, directives, blank, ends⟩ := sound.exists_blocks
  refine ⟨_, parse_eq scanned placed (unifyBreaks_of_notMem sound.noReturn), ?_, fun demoted => ?_⟩
  · have outlines := outlines_ofBlocks x.text x.items x.type.trailing
    rw [← outlines_bare, bare_itemsFrom, items, List.map_append, List.map_singleton,
      token_precede, sound.declares.tokens] at outlines
    exact outlines
  · have parts := scanned.parts placed
    rw [rest, blocks, partsFrom_append_directives directives, partsFrom, role] at parts
    obtain ⟨t, types, shows, -, -⟩ := List.forall₂_cons_right_iff.1 parts
    have same := shows.header_bare (w := x.type) pieces sound.declares
    have ink : ∀ p ∈ b.pieces, p.IsInk := by
      have fits := (fits_append.1 sound.fits).2
      rw [precede_eq_regap] at fits
      rw [pieces]
      exact isInk_of_regap fits.isInk
    have turned : source (h.bodyPieces demoted b.item b.pieces)
        = source (x.left demoted).pieces := by
      cases demoted with
      | false => rw [Header.bodyPieces, if_neg (by simp), pieces, left, if_neg (by simp)]
      | true =>
        have edited := (shows.edited_written ink pieces sound.declares).2
        have isPublic : h.visibility = .publicAccess := by
          rw [← Header.visibility_bare, same, Header.visibility_bare, sound.isPublic]
        rw [Header.bodyPieces, if_pos rfl, Header.demotePieces, if_pos isPublic, left, if_pos rfl]
        exact congrArg source edited
    have front : bs.flatMap (Block.turned (Header.bodyPieces demoted)) = bs.flatMap Block.kept :=
      List.flatMap_congr fun b mem => Block.turned_directive (directives b mem) _
    have whole : (bs ++ [b]).flatMap (Block.turned (Header.bodyPieces demoted)) ++ x.type.trailing
        = (bs ++ [b]).flatMap Block.kept ++ (x.left demoted).text := by
      rw [List.flatMap_append, front, List.flatMap_append, List.flatMap_singleton,
        List.flatMap_singleton, Block.turned, role]
      simp only [turned, Written.text, trailing_left, List.append_assoc]
    rw [scanned.text_body placed, blocks, rest, whole,
      trimBlankLines_append_lines blank ends, taken]

theorem fits_type (sound : x.IsSound) (s : Text) : Fits x.type.pieces s := by
  have fits := (fits_append.1 sound.fits).2
  obtain ⟨p, ps, pieces⟩ := List.exists_cons_of_ne_nil sound.declares.ne_nil
  have closed : Item.IsClosed (x.type.pieces.map Piece.token) :=
    sound.declares.tokens ▸ sound.declares.sound.isClosed
  have indent := sound.indent
  rw [pieces] at fits closed indent ⊢
  exact (fits.regap (.of_blank indent)).of_isClosed closed s

theorem fits_left (sound : x.IsSound) (demoted : Bool) (s : Text) :
    Fits (x.left demoted).pieces s := by
  cases demoted with
  | false => exact sound.fits_type s
  | true => exact sound.declares.fits_hidden (sound.fits_type s)

theorem taken_ne_nil (sound : x.IsSound) (demoted : Bool) : x.taken demoted ≠ [] := by
  have more : (x.left demoted).pieces ≠ [] := by
    cases demoted with
    | false => exact sound.declares.ne_nil
    | true => exact sound.declares.hidden_ne_nil
  obtain ⟨p, ps, pieces⟩ := List.exists_cons_of_ne_nil more
  obtain ⟨c, s, lexeme, visible⟩ := (sound.fits_left demoted []).isInk p (by simp [pieces])
  refine trimBlankLines_ne_nil ?_ visible
  rw [Written.text, pieces, source_cons, lexeme]
  simp

end IsSound

/-- Whether `public` stands before all other modifiers, with one blank behind it. -/
def IsSpaced (x : Single) : Prop :=
  x.type.IsSpaced x.declared

theorem IsSound.exists_left (sound : x.IsSound) (spaced : x.IsSpaced) (demoted : Bool) :
    ∃ d, (x.left demoted).Declares d ∧ d.header.name = x.name ∧
      (x.left demoted).published = x.type ∧
      leadingGap (x.left demoted).pieces = leadingGap x.type.pieces := by
  obtain ⟨ms, hidden, published⟩ := sound.declares.exists_hidden spaced sound.isPublic
  cases demoted with
  | false =>
    refine ⟨x.declared, sound.declares, rfl, ?_, rfl⟩
    show x.type.published = x.type
    rw [← published, Written.published_published]
  | true =>
    refine ⟨_, hidden, rfl, published, ?_⟩
    show leadingGap x.type.hidden.pieces = _
    rw [← Written.leadingGap_published, published]

/-- The text that a merge takes from a source is that of a passage. Made public, the passage has the
text of the type, but for blanks at the end. -/
theorem IsSound.exists_passage (sound : x.IsSound) (spaced : x.IsSpaced) {breaks : Text}
    (isBreaks : breaks = [ofChar '\n'] ∨ breaks = [ofChar '\n', ofChar '\n']) (demoted : Bool) :
    ∃ (w : Written) (d : TypeSyntax), w.text = ofLines (x.taken demoted) ++ breaks ∧
      w.IsPassage d ∧ d.header.name = x.name ∧
      stripRight w.published.text = stripRight x.type.text := by
  obtain ⟨d, declares, name, published, leading⟩ := sound.exists_left spaced demoted
  have fits := sound.fits_left demoted
  have solid : ∀ p ∈ (x.left demoted).pieces, ofChar '\n' ∉ p.lexeme := by
    intro p mem
    have ofType {p : Piece} (mem : p ∈ x.type.pieces) : ofChar '\n' ∉ p.lexeme := by
      obtain ⟨q, inside, same⟩ := Passage.exists_lexeme_precede mem x.above
      exact same ▸ sound.solid q (List.mem_append_right _ inside)
    cases demoted with
    | false => exact ofType mem
    | true =>
      obtain ⟨q, inside, same⟩ := Written.lexeme_hidden mem
      exact same ▸ ofType inside
  have indent := leading ▸ sound.indent
  have within := leading ▸ sound.within
  obtain ⟨t, back, trailing, blankBack, text⟩ := declares.exists_trimmed fits within
  have isTail : IsTail (t ++ back) := by
    rw [← trailing, trailing_left]
    exact sound.isTail
  refine ⟨_, d, ?_, declares.isPassage fits solid indent within isTail blankBack isBreaks, name, ?_⟩
  · rw [taken, ← text, List.append_assoc]
    rfl
  · have breaksBlank : ∀ c ∈ breaks, c.isBlank = true := by
      rcases isBreaks with rfl | rfl <;> decide
    rw [trailing_left] at trailing
    rw [Written.published_behind, published, Written.text, Written.text, trailing,
      ← List.append_assoc, stripRight_append_blank _ blankBack]
    show stripRight (source x.type.pieces ++ (t ++ breaks)) = _
    rw [← List.append_assoc, stripRight_append_blank _ breaksBlank]

end Single

end JavaUnits
