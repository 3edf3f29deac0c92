import JavaUnits.Proofs.Parts

/-!
The blocks of a scanned text make up the text, and stand where its tokens are found. What they keep
of the gaps are gaps again, so that items which lose the directives between them are read as before.
-/

namespace JavaUnits

open CodePoint Token Scan Text CompilationUnit

section

variable {pre : Preceding} {p : Position} {tail : Text} {items : List (List Piece)}

theorem text_blocksFrom (pre : Preceding) (p : Position) (tail : Text)
    (more : ∀ ps ∈ items, ps ≠ []) :
    pre.taken (nextGap tail items)
        ++ ((blocksFrom pre p tail items).flatMap Block.text ++ restFrom pre p tail items)
      = source items.flatten ++ tail := by
  induction items generalizing pre p with
  | nil =>
    obtain ⟨later, split⟩ := taken_begins pre tail
    simp only [nextGap, blocksFrom, restFrom, List.flatMap_nil, List.nil_append, List.flatten_nil,
      source_nil]
    conv => lhs; arg 2; arg 2; rw [← split]
    rw [List.drop_left, split]
  | cons ps items ih =>
    rw [List.forall_mem_cons] at more
    have later := ih (pre.after (.ofItem (tokensFrom p ps)) ps) (positionFrom p ps) more.2
    have gap := gap_split pre (.ofItem (tokensFrom p ps)) (leadingGap ps)
    rw [List.flatten_cons, source_append, List.append_assoc, ← later, source_eq_inkText ps]
    conv => rhs; rw [← gap]
    simp only [blocksFrom, restFrom, nextGap, List.flatMap_cons, Block.text, Preceding.block,
      source_regap _ more.1, List.append_assoc]

theorem token_regap (gap : Text) (ps : List Piece) :
    (regap gap ps).map Piece.token = ps.map Piece.token := by
  cases ps <;> rfl

theorem fits_regap {ps : List Piece} {gap s : Text} (fits : Fits ps s) (isGap : IsGap gap) :
    Fits (regap gap ps) s := by
  cases ps with
  | nil => trivial
  | cons p ps => exact fits.regap isGap

theorem isSound_block {ps : List Piece} {s : Text} (pre : Preceding) (p : Position)
    (behind : Text) (fits : Fits ps s) (more : ps ≠ []) :
    (pre.block (tokensFrom p ps) (.ofItem (tokensFrom p ps)) ps behind).IsSound where
  source := by
    simp only [Preceding.block, source_regap _ more]
    simp [(inkText_last fits more).1]
  taken := by
    intro other
    simp only [Preceding.block] at other ⊢
    rw [after_item other]
    rfl
  role := rfl
  tokens := by
    simp only [Preceding.block, token_regap, bare_tokensFrom]

theorem isSound_blocksFrom (fits : Fits items.flatten tail) (more : ∀ ps ∈ items, ps ≠ [])
    (pre : Preceding) (p : Position) :
    ∀ b ∈ blocksFrom pre p tail items, b.IsSound := by
  induction items generalizing pre p with
  | nil => simp [blocksFrom]
  | cons ps items ih =>
    rw [List.forall_mem_cons] at more
    rw [List.flatten_cons] at fits
    obtain ⟨fitsItem, fitsLater⟩ := fits_append.1 fits
    rw [blocksFrom, List.forall_mem_cons]
    exact ⟨isSound_block pre p _ fitsItem more.1, ih fitsLater more.2 _ _⟩

theorem spots_block {code : Text} {before ps later : List Piece} {gap : Text}
    (placed : Placed code (before ++ (ps ++ later))) (own : gap <:+ leadingGap ps) :
    Spots (.ofText code) ((source before).length + (leadingGap ps).length - gap.length)
      (tokensFrom (positionFrom .start before) ps) (regap gap ps) := by
  intro front t back split
  obtain ⟨xs, ys, rfl, rfl, tokens⟩ := tokensFrom_eq_append split
  cases ys with
  | nil => simp [tokensFrom] at tokens
  | cons q ys =>
    obtain ⟨rfl, rfl⟩ := List.cons.inj tokens
    have found := placed (before ++ xs) q (ys ++ later) (by simp)
    rw [tokenAfter, positionFrom_append, source_append, List.length_append] at found
    have bound := own.length_le
    cases xs with
    | nil =>
      refine ⟨[], { q with gap := gap }, ys, rfl, rfl, rfl, (bare_tokensFrom _ _).symm, ?_⟩
      simp only [leadingGap, List.nil_append] at bound ⊢
      rw [found]
      simp only [source_nil, List.length_nil, Option.some.injEq]
      omega
    | cons x xs =>
      refine ⟨{ x with gap := gap } :: xs, q, ys, rfl, ?_, rfl, (bare_tokensFrom _ _).symm, ?_⟩
      · rw [bare_tokensFrom]
        rfl
      · rw [found]
        simp only [source_cons, List.length_append, Option.some.injEq, leadingGap,
          List.cons_append] at bound ⊢
        omega

theorem blocksFrom_eq_append (more : ∀ ps ∈ items, ps ≠ []) {xs ys : List Block} {b : Block}
    (split : blocksFrom pre p tail items = xs ++ b :: ys) :
    ∃ (fronts : List (List Piece)) (ps : List Piece) (backs : List (List Piece))
        (pre' : Preceding), items = fronts ++ ps :: backs ∧
      b = pre'.block (tokensFrom (positionFrom p fronts.flatten) ps)
        (.ofItem (tokensFrom (positionFrom p fronts.flatten) ps)) ps (nextGap tail backs) ∧
      pre.taken (nextGap tail items) ++ xs.flatMap Block.text
        = source fronts.flatten ++ pre'.taken (leadingGap ps) ∧
      ys = blocksFrom (pre'.after b.role ps) (positionFrom p (fronts.flatten ++ ps)) tail backs ∧
      restFrom pre p tail items
        = restFrom (pre'.after b.role ps) (positionFrom p (fronts.flatten ++ ps)) tail backs := by
  induction items generalizing pre p xs with
  | nil => simp [blocksFrom] at split
  | cons ps items ih =>
    rw [List.forall_mem_cons] at more
    rw [blocksFrom] at split
    cases xs with
    | nil =>
      rw [List.nil_append, List.cons.injEq] at split
      obtain ⟨rfl, rfl⟩ := split
      refine ⟨[], ps, items, pre, rfl, rfl, ?_, rfl, rfl⟩
      simp [nextGap]
    | cons x xs =>
      rw [List.cons_append, List.cons.injEq] at split
      obtain ⟨rfl, split⟩ := split
      obtain ⟨fronts, qs, backs, pre', rfl, rfl, before, rfl, rest⟩ := ih more.2 split
      refine ⟨ps :: fronts, qs, backs, pre', rfl, ?_, ?_, ?_, ?_⟩
      · rw [List.flatten_cons, positionFrom_append]
      · have gap := gap_split pre (.ofItem (tokensFrom p ps)) (leadingGap ps)
        have item : source ps = leadingGap ps ++ inkText ps := source_eq_inkText ps
        rw [List.flatten_cons, source_append, List.append_assoc, ← before, List.flatMap_cons, item]
        conv => rhs; rw [← gap]
        simp only [nextGap, Block.text, Preceding.block, source_regap _ more.1, List.append_assoc]
      · rw [List.flatten_cons, List.append_assoc, positionFrom_append p ps]
      · rw [restFrom, rest, List.flatten_cons, List.append_assoc, positionFrom_append p ps]

theorem spots_blocksFrom {code : Text} (placed : Placed code items.flatten)
    (more : ∀ ps ∈ items, ps ≠ []) {xs ys : List Block} {b : Block}
    (split : blocksFrom .nothing .start tail items = xs ++ b :: ys) :
    Spots (.ofText code) ((xs.flatMap Block.text).length + b.kept.length) b.item b.pieces := by
  obtain ⟨fronts, ps, backs, pre', rfl, rfl, before, -, -⟩ := blocksFrom_eq_append more split
  rw [List.flatten_append, List.flatten_cons] at placed
  have spots := spots_block placed (own_ends pre'
    (.ofItem (tokensFrom (positionFrom .start fronts.flatten) ps)) (leadingGap ps))
  have gap := congrArg List.length (gap_split pre'
    (.ofItem (tokensFrom (positionFrom .start fronts.flatten) ps)) (leadingGap ps))
  have length := congrArg List.length before
  simp only [List.length_append, Preceding.taken_nothing, List.nil_append] at gap length
  have place : (source fronts.flatten).length + (leadingGap ps).length
      - (pre'.own (.ofItem (tokensFrom (positionFrom .start fronts.flatten) ps))
        (leadingGap ps)).length
      = (xs.flatMap Block.text).length
        + (pre'.kept (.ofItem (tokensFrom (positionFrom .start fronts.flatten) ps))
          (leadingGap ps)).length := by
    omega
  rw [place] at spots
  exact spots

end

/-! ## What is kept of a gap -/

theorem isBlank_of_isSpaceOrTab {c : CodePoint} (blank : c.isSpaceOrTab = true) :
    c.isBlank = true := by
  simp only [isSpaceOrTab, Bool.or_eq_true, decide_eq_true_eq] at blank
  rcases blank with rfl | rfl <;> decide

section

variable {pre : Preceding} {role : Role} {gap : Text}

theorem isBlank_of_mem_taken {c : CodePoint} (mem : c ∈ pre.taken gap) : c.isBlank = true := by
  have blanks (mem : c ∈ gap.takeWhile isSpaceOrTab) : c.isBlank = true :=
    isBlank_of_isSpaceOrTab (List.mem_takeWhile_imp mem)
  cases pre with
  | nothing => simp [Preceding.taken] at mem
  | item => simp [Preceding.taken] at mem
  | directive owns reaches =>
    rw [Preceding.taken] at mem
    split at mem
    · rw [List.mem_append, List.mem_singleton] at mem
      rcases mem with mem | rfl
      · exact blanks mem
      · decide
    · exact blanks mem

theorem isGap_kept_own (pre : Preceding) (role : Role) (isGap : IsGap gap) :
    IsGap (pre.kept role gap ++ pre.own role gap) := by
  rw [← gap_split pre role gap] at isGap
  exact isGap.of_append_blank fun c => isBlank_of_mem_taken

/-- What is kept before a line that goes with the next item ends a line. -/
theorem kept_ends (own : pre.own role gap = gap.lastLine) :
    pre.kept role gap = [] ∨ (pre.kept role gap).getLast? = some (ofChar '\n') := by
  have split := gap_split pre role gap
  rw [own] at split
  by_cases mem : ofChar '\n' ∈ gap
  · obtain ⟨front, whole⟩ := eq_append_lastLine mem
    have same : pre.taken gap ++ pre.kept role gap = front ++ [ofChar '\n'] := by
      refine @List.append_cancel_right _ _ gap.lastLine _ ?_
      rw [List.append_assoc, split]
      simpa using whole
    rcases List.eq_nil_or_concat (pre.kept role gap) with none | ⟨init, c, kept⟩
    · exact .inl none
    · right
      rw [kept, List.concat_eq_append, ← List.append_assoc] at same
      rw [kept, List.concat_eq_append, (List.append_inj_right' same rfl)]
      simp
  · left
    rw [Text.lastLine_of_noBreak mem] at split
    have length := congrArg List.length split
    simp only [List.length_append] at length
    exact List.length_eq_zero_iff.1 (by omega)

theorem isBlank_of_mem_kept {h : Header} (stale : pre.isFresh gap = false) {c : CodePoint}
    (mem : c ∈ pre.kept (.type h) gap) : c.isBlank = true := by
  have split := gap_split pre (.type h) gap
  rw [Preceding.own, if_neg (by simp [stale])] at split
  have blanks : pre.taken gap ++ pre.kept (.type h) gap = gap.takeWhile isSpaceOrTab := by
    refine @List.append_cancel_right _ _ (gap.dropWhile isSpaceOrTab) _ ?_
    rw [List.append_assoc, split, List.takeWhile_append_dropWhile]
  apply isBlank_of_isSpaceOrTab
  apply List.mem_takeWhile_imp (l := gap)
  rw [← blanks]
  exact List.mem_append_right _ mem

theorem isGap_kept_type {h : Header} {ps : List Piece} {t : Text} (isGap : IsGap gap)
    (ran : run (pre.taken gap ++ pre.kept (.type h) gap) = (ps, .done t)) :
    IsGap (pre.kept (.type h) gap) := by
  by_cases fresh : pre.isFresh gap = true
  · rcases @kept_ends pre (.type h) gap (by rw [Preceding.own, if_pos fresh])
      with none | ends
    · rw [none]
      exact .nil
    · have split := gap_split pre (.type h) gap
      rw [← List.append_assoc] at split
      rw [← split] at isGap
      have whole := isGap_of_run isGap ran (by
        rw [List.getLast?_append, ends, Option.some_or])
      exact whole.of_append_blank fun c => isBlank_of_mem_taken
  · exact .of_blank fun c => isBlank_of_mem_kept (Bool.eq_false_iff.2 fresh)

/-- What is kept before an item is a gap, unless a type's line begins in a comment. -/
theorem isGap_kept (isGap : IsGap gap) (other : role.isType = false) :
    IsGap (pre.kept role gap) := by
  have whole := isGap_kept_own pre role isGap
  have directive (own : pre.own role gap = if pre.isAlone gap then gap.lastLine else []) :
      IsGap (pre.kept role gap) := by
    by_cases alone : pre.isAlone gap = true
    · rw [if_pos alone] at own
      simp only [Preceding.isAlone, Bool.and_eq_true] at alone
      rcases kept_ends own with none | ends
      · rw [none]
        exact .nil
      · exact (whole.of_append_blanks rfl
          (by rw [own]; exact List.all_eq_true.1 alone.2)).isGap ends
    · rw [own, if_neg alone, List.append_nil] at whole
      exact whole
  cases role with
  | package => exact directive rfl
  | importDecl => exact directive rfl
  | stray =>
    rw [Preceding.own, List.append_nil] at whole
    exact whole
  | type h => simp [Role.isType] at other

end

/-! ## The blocks of a scanned text -/

/-- What is known of a block with the blocks `bs` behind it and `rest` left of the tail. -/
structure Block.Stands (rest : Text) (bs : List Block) (b : Block) : Prop where
  sound : b.IsSound
  whole : IsGap (b.kept ++ leadingGap b.pieces)
  kept : b.role.isType = false → IsGap b.kept
  plain : (b.kept ++ leadingGap b.pieces).IsPlain ∧ ∀ p ∈ regap [] b.pieces, p.IsPlain
  fits : b.role.isDirective = false →
    (∀ t, Fits (regap [] b.pieces) t) ∨ bs = [] ∧ Fits (regap [] b.pieces) rest

section

variable {code tail : Text} {items : List (List Piece)}

theorem Scanned.text (scanned : Scanned code items tail) :
    code = (blocksOf items tail).flatMap Block.text ++ restOf items tail := by
  have text := text_blocksFrom .nothing .start tail scanned.nonempty
  simp only [Preceding.taken_nothing, List.nil_append] at text
  exact scanned.whole.trans text.symm

theorem isTail_restFrom (pre : Preceding) (p : Position) (isTail : IsTail tail) :
    IsTail (restFrom pre p tail items) := by
  induction items generalizing pre p with
  | nil =>
    obtain ⟨later, split⟩ := taken_begins pre tail
    rw [← split] at isTail
    rw [restFrom]
    conv => arg 1; arg 2; rw [← split]
    rw [List.drop_left]
    exact isTail.of_append_blank fun c => isBlank_of_mem_taken
  | cons ps items ih => exact ih _ _

theorem isPlain_restFrom (pre : Preceding) (p : Position) (plain : tail.IsPlain) :
    (restFrom pre p tail items).IsPlain := by
  induction items generalizing pre p with
  | nil =>
    obtain ⟨later, split⟩ := taken_begins pre tail
    rw [← split] at plain
    rw [restFrom]
    conv => arg 1; arg 2; rw [← split]
    rw [List.drop_left]
    exact isPlain_of_append_blank plain fun c => isBlank_of_mem_taken
  | cons ps items ih => exact ih _ _

theorem Scanned.reads_rest (scanned : Scanned code items tail) : Reads (restOf items tail) [] :=
  reads_tail (isTail_restFrom .nothing .start scanned.isTail) (isPlain_restFrom .nothing .start
    ((isPlain_source scanned.fits).1 (scanned.whole ▸ scanned.plain)).2)

/-- An item is scanned whatever stands behind it, unless it is the last one. -/
theorem Scanned.fits_block (scanned : Scanned code items tail) {xs ys : List Block} {b : Block}
    (split : blocksOf items tail = xs ++ b :: ys) : (∀ t, Fits (regap [] b.pieces) t) ∨
      ys = [] ∧ Fits (regap [] b.pieces) (b.taken ++ restOf items tail) := by
  obtain ⟨fronts, ps, backs, pre, rfl, rfl, -, rfl, rest⟩ :=
    blocksFrom_eq_append scanned.nonempty split
  have fits := scanned.fits
  rw [List.flatten_append, List.flatten_cons] at fits
  have fitsItem := (fits_append.1 (fits_append.1 fits).2).1
  obtain ⟨p, qs, rfl⟩ := List.exists_cons_of_ne_nil (scanned.nonempty ps (by simp))
  have bare : Fits (regap [] (p :: qs)) (source backs.flatten ++ tail) := fits_regap fitsItem .nil
  cases backs with
  | nil =>
    refine .inr ⟨rfl, ?_⟩
    obtain ⟨later, behind⟩ := taken_begins
      (pre.after (.ofItem (tokensFrom (positionFrom .start fronts.flatten) (p :: qs))) (p :: qs))
      tail
    have left : restOf (fronts ++ [p :: qs]) tail = later := by
      rw [show restOf (fronts ++ [p :: qs]) tail
        = restFrom .nothing .start tail (fronts ++ [p :: qs]) from rfl, rest, restFrom]
      conv => lhs; arg 2; rw [← behind]
      exact List.drop_left
    rw [left]
    exact behind.symm ▸ bare
  | cons later backs =>
    refine .inl fun t => bare.of_isClosed ?_ t
    rw [token_regap]
    apply scanned.closed
    rw [List.dropLast_append_of_ne_nil (by simp), List.dropLast_cons_of_ne_nil (by simp)]
    simp

theorem Scanned.stands (scanned : Scanned code items tail) {xs ys : List Block} {b : Block}
    (split : blocksOf items tail = xs ++ b :: ys) : b.Stands (restOf items tail) ys := by
  have closes := scanned.fits_block split
  obtain ⟨fronts, ps, backs, pre, rfl, rfl, -, rfl, rest⟩ :=
    blocksFrom_eq_append scanned.nonempty split
  have fits := scanned.fits
  rw [List.flatten_append, List.flatten_cons] at fits
  obtain ⟨fitsItem, fitsLater⟩ := fits_append.1 (fits_append.1 fits).2
  have more : ps ≠ [] := scanned.nonempty ps (by simp)
  obtain ⟨p, qs, rfl⟩ := List.exists_cons_of_ne_nil more
  have plain := ((isPlain_source scanned.fits).1 (scanned.whole ▸ scanned.plain)).1
  have plainItem : ∀ q ∈ p :: qs, q.IsPlain := fun q mem => plain q (by
    rw [List.flatten_append, List.flatten_cons]
    exact List.mem_append_right _ (List.mem_append_left _ mem))
  rw [List.forall_mem_cons] at plainItem
  refine ⟨isSound_block pre _ _ fitsItem more, isGap_kept_own _ _ fitsItem.1,
    isGap_kept fitsItem.1, ⟨?_, ?_⟩, fun other => ?_⟩
  · have gap := plainItem.1.1
    rw [← gap_split pre (.ofItem (tokensFrom (positionFrom .start fronts.flatten) (p :: qs)))
      p.gap] at gap
    exact isPlain_of_append_blank gap fun c => isBlank_of_mem_taken
  · exact List.forall_mem_cons.2 ⟨⟨isPlain_nil, plainItem.1.2⟩, plainItem.2⟩
  rwa [(isSound_block pre _ _ fitsItem more).taken other, List.nil_append] at closes

theorem Scanned.isGap_kept (scanned : Scanned code items tail) {xs ys : List Block} {b : Block}
    (split : blocksOf items tail = xs ++ b :: ys) {qs : List Piece} {t : Text}
    (ran : run (xs.flatMap Block.text ++ b.kept) = (qs, .done t)) : IsGap b.kept := by
  obtain ⟨fronts, ps, backs, pre, rfl, rfl, before, -, -⟩ :=
    blocksFrom_eq_append scanned.nonempty split
  have fits := scanned.fits
  rw [List.flatten_append, List.flatten_cons] at fits
  obtain ⟨fitsFront, fits⟩ := fits_append.1 fits
  obtain ⟨p, qs, rfl⟩ := List.exists_cons_of_ne_nil (scanned.nonempty ps (by simp))
  have isGap : IsGap p.gap := (fits_append.1 fits).1.1
  generalize role : Role.ofItem (tokensFrom (positionFrom .start fronts.flatten) (p :: qs)) = r
    at *
  by_cases isType : r.isType = true
  · obtain ⟨h, rfl⟩ : ∃ h, r = .type h := by
      cases r <;> simp_all [Role.isType]
    simp only [Preceding.taken_nothing, List.nil_append] at before
    simp only [Preceding.block] at ran ⊢
    rw [before, List.append_assoc] at ran
    have gap := gap_split pre (.type h) p.gap
    rw [← List.append_assoc] at gap
    generalize kept : pre.taken p.gap ++ pre.kept (.type h) p.gap = k at gap
    rw [show leadingGap (p :: qs) = p.gap from rfl] at *
    rw [kept] at ran
    by_cases none : k = []
    · rw [none, List.append_eq_nil_iff] at kept
      rw [kept.2]
      exact .nil
    · have front : Fits fronts.flatten k := by
        obtain ⟨c, k, rfl⟩ := List.exists_cons_of_ne_nil none
        rw [List.cons_append, source_cons, ← gap] at fitsFront
        rw [← gap] at isGap
        exact fitsFront.exchange_same isGap.head_joins k
      rw [run_of_fits front, Prod.mk.injEq] at ran
      refine @isGap_kept_type _ _ _ (run k).1 t isGap ?_
      rw [kept, ← ran.2]
  · exact JavaUnits.isGap_kept isGap (Bool.eq_false_iff.2 isType)

theorem map_typesOf_start (code : Text) (cuts : List Span) (located : List Located) :
    (typesOf code cuts located).map (fun t => t.span.start) = located.map Located.start := by
  induction located with
  | nil => rfl
  | cons t ts ih => simp [typesOf, ih]

/-- Whether the text before each type can be scanned, so that no type begins in a comment. -/
def CompilationUnit.IsApart (u : CompilationUnit) : Prop :=
  ∀ t ∈ u.types, (tokenize (u.code.take t.span.start)).isOk = true

instance (u : CompilationUnit) : Decidable u.IsApart :=
  inferInstanceAs (Decidable (∀ t ∈ u.types, _))

theorem Scanned.isGap_of_isApart (scanned : Scanned code items tail)
    (apart : (ofBlocks code (blocksOf items tail)).IsApart) :
    ∀ b ∈ blocksOf items tail, IsGap b.kept := by
  intro b mem
  obtain ⟨xs, ys, split⟩ := List.append_of_mem mem
  by_cases isType : b.role.isType = true
  · obtain ⟨h, role⟩ := Role.exists_of_isType isType
    have starts := map_typesOf_start code
      ((Block.entries (.ofText code) 0 (blocksOf items tail)).filterMap CompilationUnit.Entry.cut?)
      ((Block.entries (.ofText code) 0 (blocksOf items tail)).filterMap CompilationUnit.Entry.type?)
    have found : (xs.flatMap Block.text).length + b.kept.length
        ∈ (ofBlocks code (blocksOf items tail)).types.map fun t => t.span.start := by
      rw [ofBlocks, ofEntries, starts, split, Block.entries_append, List.filterMap_append,
        Block.entries, List.filterMap_cons, Block.entry, role]
      simp [CompilationUnit.Entry.type?]
    obtain ⟨t, inside, start⟩ := List.mem_map.1 found
    obtain ⟨read, ok⟩ : ∃ read, tokenize (code.take t.span.start) = .ok read := by
      have ok := apart t inside
      rw [show (ofBlocks code (blocksOf items tail)).code = code from rfl] at ok
      cases read : tokenize (code.take t.span.start) with
      | ok ts => exact ⟨ts, rfl⟩
      | error => simp [read, Except.isOk, Except.toBool] at ok
    have text := scanned.text
    rw [split] at text
    have front : code.take t.span.start = xs.flatMap Block.text ++ b.kept := by
      rw [start, text]
      simp only [List.flatMap_append, List.flatMap_cons, Block.text, List.append_assoc]
      rw [← List.append_assoc]
      exact List.take_left' (by simp)
    have split' := List.take_append_drop t.span.start code
    have plain := scanned.plain
    rw [← split'] at plain
    obtain ⟨qs, rest, ran, -⟩ := (reads_of_tokenize plain.of_append ok).run
    rw [front] at ran
    exact scanned.isGap_kept split ran
  · exact (scanned.stands split).kept (Bool.eq_false_iff.2 isType)

end

namespace Block

variable {rest : Text} {bs : List Block} {b : Block}

theorem Stands.opens_kept (stands : b.Stands rest bs) (kept : IsGap b.kept) : Opens b.kept [] :=
  opens_gap kept stands.plain.1.of_append

theorem Stands.plain_pieces (stands : b.Stands rest bs) (kept : IsGap b.kept) :
    ∀ p ∈ b.pieces, p.IsPlain := by
  have own := ((isPlain_append kept.last).1 stands.plain.1).2
  have ink := stands.plain.2
  cases pieces : b.pieces with
  | nil => simp
  | cons p ps =>
    rw [pieces] at own ink
    exact List.forall_mem_cons.2 ⟨⟨own, (List.forall_mem_cons.1 ink).1.2⟩,
      (List.forall_mem_cons.1 ink).2⟩

theorem Stands.fits_of_regap (stands : b.Stands rest bs) (kept : IsGap b.kept) {t : Text}
    (fits : Fits (regap [] b.pieces) t) : Fits b.pieces t := by
  have own : IsGap (leadingGap b.pieces) := kept.of_append stands.whole
  have back := fits_regap fits own
  cases pieces : b.pieces with
  | nil => trivial
  | cons p ps =>
    rw [pieces] at back
    exact back

theorem Stands.fits_pieces (stands : b.Stands rest bs) (kept : IsGap b.kept)
    (other : b.role.isDirective = false) :
    (∀ t, Fits b.pieces t) ∨ bs = [] ∧ Fits b.pieces rest := by
  rcases stands.fits other with fits | ⟨last, fits⟩
  · exact .inl fun t => stands.fits_of_regap kept (fits t)
  · exact .inr ⟨last, stands.fits_of_regap kept fits⟩

theorem reads_ownedText (stands : ∀ xs b ys, bs = xs ++ b :: ys → b.Stands rest ys)
    (kept : ∀ b ∈ bs, IsGap b.kept) (ending : Reads rest []) :
    Reads (ownedText rest bs) ((strays bs).flatten.map Token.bare) := by
  induction bs with
  | nil => exact ending
  | cons b bs ih =>
    rw [List.forall_mem_cons] at kept
    have here := stands [] b bs rfl
    have opens := here.opens_kept kept.1
    have later := ih (fun xs c ys split => stands (b :: xs) c ys (by rw [split]; rfl)) kept.2
    rw [ownedText, strays]
    cases role : b.role with
    | type h => exact opens.reads
    | package => simpa [Role.isType, Role.isDirective] using opens.append_reads later
    | importDecl => simpa [Role.isType, Role.isDirective] using opens.append_reads later
    | stray =>
      simp only [Role.isType, Role.isDirective, Bool.false_eq_true, if_false, List.flatten_cons,
        List.map_append, ← here.sound.tokens]
      rw [List.append_assoc, ← List.nil_append (_ ++ _)]
      apply opens.append_reads
      have plain := here.plain_pieces kept.1
      rcases here.fits_pieces kept.1 (by rw [role]; rfl) with fits | ⟨rfl, fits⟩
      · exact (opens_source fits plain).append_reads later
      · simpa [strays, ownedText] using reads_source fits plain ending

end Block

/-- What is known of a part of a text in which no type begins in a comment. -/
structure Part.Holds (part : Part) : Prop where
  plain : ∀ p ∈ part.pieces, p.IsPlain
  fits : Fits part.pieces part.trailing
  trailing : Reads part.trailing (part.strays.flatten.map Token.bare)
  closed : (∀ t, Fits part.pieces t) ∨ part.strays = []

theorem holds_partsFrom {rest : Text} {bs : List Block}
    (stands : ∀ xs b ys, bs = xs ++ b :: ys → b.Stands rest ys) (kept : ∀ b ∈ bs, IsGap b.kept)
    (ending : Reads rest []) : ∀ part ∈ partsFrom rest bs, part.Holds := by
  induction bs with
  | nil => simp [partsFrom]
  | cons b bs ih =>
    rw [List.forall_mem_cons] at kept
    have here := stands [] b bs rfl
    have behind := fun xs c ys (split : bs = xs ++ c :: ys) =>
      stands (b :: xs) c ys (by rw [split]; rfl)
    have later := ih behind kept.2
    rw [partsFrom]
    cases role : b.role with
    | type h =>
      refine List.forall_mem_cons.2 ⟨⟨here.plain_pieces kept.1, ?_,
        Block.reads_ownedText behind kept.2 ending, ?_⟩, later⟩
      all_goals
        rcases here.fits_pieces kept.1 (by rw [role]; rfl) with fits | ⟨rfl, fits⟩
      · exact fits _
      · exact fits
      · exact .inl fits
      · exact .inr rfl
    | package => exact later
    | importDecl => exact later
    | stray => exact later

/-- A part whose pieces are exchanged for others is read as these and the strays behind. -/
theorem Part.Holds.reads {part : Part} (holds : part.Holds) {pieces : List Piece}
    (plain : ∀ p ∈ pieces, p.IsPlain) (fits : ∀ t, Fits part.pieces t → Fits pieces t) :
    Reads (source pieces ++ part.trailing)
      (pieces.map Piece.token ++ part.strays.flatten.map Token.bare) := by
  rcases holds.closed with closed | none
  · exact (opens_source (fun t => fits t (closed t)) plain).append_reads holds.trailing
  · have trailing := holds.trailing
    rw [none] at trailing ⊢
    rw [List.flatten_nil, List.map_nil, List.append_nil]
    exact reads_source (fits _ holds.fits) plain trailing

end JavaUnits
