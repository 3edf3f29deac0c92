import JavaUnits.Proofs.RoundTrip

/-!
Leaves that are declarations of types, and what becomes of them when their visibility goes. What is
left of such a leaf is a leaf again if its first line is still the one on which the type begins.
-/

namespace JavaUnits

open CodePoint Token Scan Text CompilationUnit

/-! ## Blank lines before a text that shows something -/

theorem Text.exists_trimmed {gap s : Text} {c : CodePoint} (ink : c.isBlank = false)
    (last : ∀ d, (c :: s).getLast? = some d → d.isBlank = false) :
    ∃ blanks rest, gap = blanks ++ rest ∧ (∀ d ∈ blanks, d.isBlank = true) ∧
      ofLines (trimBlankLines (lines (gap ++ c :: s))) = rest ++ c :: s := by
  obtain ⟨front, back, whole, blankFront, blankBack⟩ := trimBlankLines_split (gap ++ c :: s)
  have shown : trimBlankLines (lines (gap ++ c :: s)) ≠ [] :=
    trimBlankLines_ne_nil (by simp) ink
  have none : back = [] := by
    by_contra more
    obtain ⟨d, ends⟩ := Option.isSome_iff_exists.1 (List.getLast?_isSome.2 more)
    have visible := last d (by
      have same := congrArg List.getLast? whole
      rw [List.getLast?_append, List.getLast?_append, List.getLast?_append, ends] at same
      cases final : (c :: s).getLast? with
      | none => simp at final
      | some e => simpa [final] using same)
    rw [blankBack d (List.mem_of_getLast? ends)] at visible
    cases visible
  rw [none, List.append_nil] at whole
  rcases List.append_eq_append_iff.1 whole with ⟨more, before, behind⟩ | ⟨rest, before, behind⟩
  · cases more with
    | nil =>
      refine ⟨gap, [], (List.append_nil gap).symm, ?_, ?_⟩
      · rw [List.append_nil] at before
        exact before ▸ blankFront
      · rw [List.nil_append] at behind ⊢
        exact behind.symm
    | cons d more =>
      obtain ⟨rfl, -⟩ := List.cons.inj behind
      have blank := blankFront c (by rw [before]; simp)
      rw [ink] at blank
      cases blank
  · exact ⟨front, rest, before, blankFront, behind⟩

theorem Text.stripRight_stripRight (s : Text) : stripRight (stripRight s) = stripRight s := by
  obtain ⟨b, -, -, last⟩ := stripRight_split s
  simpa using @stripRight_append (stripRight s) [] (by simp) last

/-! ## Declarations as leaves -/

namespace Leaf

def replaced (pieces : List Piece) (l : Leaf) : Leaf :=
  { l with pieces := pieces }

/-- Whether the leaf is a declaration, taken apart at its visibility, that can be made public. -/
structure Promotes (l : Leaf) (w : Written) (d : TypeSyntax) : Prop where
  pieces : w.pieces = l.pieces
  declares : w.Declares d
  sound : l.IsSound
  closes : l.Closes
  opens : ∀ s, Fits w.published.pieces s

variable {u : CompilationUnit} {t : TypeDecl} {part : Part} {l : Leaf} {w : Written}
  {d : TypeSyntax} {breaks : Text}

theorem stripRight_ended (fits : ∀ ps ∈ l.items, ∀ s, Fits ps s) (more : l.pieces ≠ [])
    (blank : ∀ c ∈ breaks, c.isBlank = true) :
    stripRight (l.ended breaks).text = stripRight l.text := by
  rw [text_ended fits more, stripRight_append_blank _ blank, stripRight_stripRight]

theorem Closes.ended (closes : l.Closes)
    (isBreaks : breaks = [ofChar '\n'] ∨ breaks = [ofChar '\n', ofChar '\n']) :
    (l.ended breaks).Closes where
  isTail := (closes.ends isBreaks).isGap.tail
  plain := closes.plain
  plainGap := by
    obtain ⟨b, split, -, -⟩ := stripRight_split l.gap
    have stripped := IsPlain.of_append (split ▸ closes.plainGap)
    show (stripRight l.gap ++ breaks).IsPlain
    rcases isBreaks with rfl | rfl
    · exact stripped.append_break
    · simpa using stripped.append_break.append_break

namespace Promotes

theorem ended (promotes : l.Promotes w d)
    (isBreaks : breaks = [ofChar '\n'] ∨ breaks = [ofChar '\n', ofChar '\n']) :
    (l.ended breaks).Promotes w d where
  pieces := promotes.pieces
  declares := promotes.declares
  sound := promotes.sound.ended breaks
  closes := promotes.closes.ended isBreaks
  opens := promotes.opens

theorem edited (promotes : l.Promotes w d) (isPart : IsPartOf u t part l) :
    l.published part = l.replaced w.published.pieces ∧
    l.hidden part = l.replaced w.hidden.pieces := by
  obtain ⟨put, taken⟩ := isPart.shows.edited_written isPart.ink
    (isPart.pieces.trans promotes.pieces.symm) promotes.declares
  rw [Leaf.published, Leaf.hidden, put, taken]
  exact ⟨rfl, rfl⟩

theorem turns (promotes : l.Promotes w d) (isPart : IsPartOf u t part l) : Turns u t part l where
  toIsPartOf := isPart
  sound := promotes.sound
  closes := promotes.closes
  opens := by
    have put := (isPart.shows.edited_written isPart.ink
      (isPart.pieces.trans promotes.pieces.symm) promotes.declares).1
    rw [put]
    exact promotes.opens
  detaches := by
    obtain ⟨d', item, -, sound, -⟩ := isPart.shows.exists_tokens
      (isPart.pieces.trans promotes.pieces.symm) promotes.declares
    exact isPart.shows.detaches_published isPart.ink ⟨d', sound, item⟩

theorem header_eq (promotes : l.Promotes w d) (isPart : IsPartOf u t part l) :
    t.header.bare = d.header.bare := by
  rw [isPart.shows.header]
  exact isPart.shows.header_bare (isPart.pieces.trans promotes.pieces.symm) promotes.declares

theorem name_eq (promotes : l.Promotes w d) (isPart : IsPartOf u t part l) :
    t.name = d.header.name :=
  (congrArg Header.name (promotes.header_eq isPart) :)

theorem declaresMain_eq (promotes : l.Promotes w d) (isPart : IsPartOf u t part l) :
    t.header.declaresMain = d.header.declaresMain :=
  (congrArg Header.declaresMain (promotes.header_eq isPart) :)

end Promotes

theorem Turns.exists_promotes (turns : Turns u t part l) (declares : part.item.IsTypeDeclaration) :
    ∃ w d, l.Promotes w d := by
  obtain ⟨d, sound, item⟩ := declares
  have tokens := turns.shows.tokens
  rw [item, ← TypeSyntax.tokens_bare] at tokens
  obtain ⟨w, pieces, -, declares⟩ :=
    Written.exists_declares ((TypeSyntax.isSound_bare d).2 sound) tokens []
  refine ⟨w, d.bare, pieces.trans turns.pieces, declares, turns.sound, turns.closes, ?_⟩
  rw [← (turns.shows.edited_written turns.ink pieces.symm declares).1]
  exact turns.opens

/-- Whether the leaf is a declaration of the type that can be made public, with the same names in
it. -/
structure Renders (u : CompilationUnit) (t : TypeDecl) (l : Leaf) (w : Written)
    (d : TypeSyntax) : Prop extends l.Promotes w d where
  name : d.header.name = t.name
  main : d.header.declaresMain = t.header.declaresMain
  names : l.names = u.names t

/-- Whether the leaf is the type made public. -/
def Exposes (u : CompilationUnit) (t : TypeDecl) (l : Leaf) : Prop :=
  ∃ w d, Renders u t l w d ∧ w.published = w ∧
    u.publicBody t = Text.lines (stripRight l.text)

theorem Turns.exists_exposes (turns : Turns u t part l) (promotes : l.Promotes w d) :
    ∃ l' : Leaf, l'.Exposes u t := by
  obtain ⟨put, -⟩ := promotes.edited turns.toIsPartOf
  obtain ⟨ms, declares, -⟩ := promotes.declares.published
  have sound := turns.isSound_published
  have closes := turns.closes_published
  have names := turns.names_published.trans turns.names_eq.symm
  rw [put] at sound closes names
  refine ⟨l.replaced w.published.pieces, w.published, d.withMarks ms,
    ⟨⟨rfl, declares, sound, closes, ?_⟩, (promotes.name_eq turns.toIsPartOf).symm,
      (promotes.declaresMain_eq turns.toIsPartOf).symm, names⟩,
    Written.published_published w, ?_⟩
  · rw [Written.published_published]
    exact promotes.opens
  · rw [turns.publicBody_eq, put]

end Leaf

/-! ## Types without their visibility -/

theorem Written.Declares.exists_marks {w : Written} {d : TypeSyntax} (declares : w.Declares d) :
    ∃ ms, (d.withMarks ms).IsSound ∧ w.hidden.pieces.map Piece.token = (d.withMarks ms).tokens ∧
      (d.withMarks ms).header.visibilityToken = none := by
  obtain ⟨back, turns, behind⟩ := declares.turns
  refine ⟨w.front.map Piece.token ++ back, turns.isSound_hidden declares.sound, ?_, ?_⟩
  · have same : w.hidden.pieces.map Piece.token
        = w.front.map Piece.token ++ w.back.map Piece.token := by
      cases visible : w.visible with
      | none =>
        rw [hidden_of_none visible, pieces, visible]
        simp
      | some v =>
        obtain ⟨q, qs, cons⟩ := declares.exists_back
        rw [hidden_some visible cons, cons, List.map_append]
        rfl
    rw [same, behind, TypeSyntax.tokens]
    simp [TypeSyntax.withMarks, TypeSyntax.members]
  · show (Header.modifiersOf (w.front.map Piece.token ++ back)).find? isVisibility = none
    rw [turns.modifiersOf_hidden, List.find?_eq_none]
    intro t mem
    simpa using (List.mem_filter.1 mem).2

/-- Whether the type without its visibility, read on its own, begins with the text and has a place
for a visibility. -/
def CompilationUnit.IsSteady (u : CompilationUnit) (t : TypeDecl) : Prop :=
  ∀ u' ∈ (parse (ofLines (u.hiddenBody t))).toOption, ∀ t' ∈ u'.types,
    t'.span.start = 0 ∧ u'.IsLoose t'

instance (u : CompilationUnit) (t : TypeDecl) : Decidable (u.IsSteady t) :=
  inferInstanceAs (Decidable (∀ u' ∈ (parse (ofLines (u.hiddenBody t))).toOption,
    ∀ t' ∈ u'.types, t'.span.start = 0 ∧ u'.IsLoose t'))

theorem CompilationUnit.mem_hiddenBody {u : CompilationUnit} {t : TypeDecl} {c : CodePoint}
    (mem : c ∈ ofLines (u.hiddenBody t)) : c ∈ u.code := by
  obtain ⟨b, split, -⟩ := stripRight_split (u.text t.span (hideEdit? u.code t).toList)
  have mem := List.mem_append_left b (mem_of_mem_trimBlankLines mem)
  rw [← split] at mem
  rcases Span.mem_render mem with mem | ⟨e, inside, mem⟩
  · exact mem
  · obtain ⟨offset, -, rfl⟩ := Option.map_eq_some_iff.1 (Option.mem_toList.1 inside)
    cases mem

namespace Leaf

variable {u : CompilationUnit} {t : TypeDecl} {part : Part} {l : Leaf} {w : Written}
  {d : TypeSyntax}

theorem Declares.isSole (declares : l.Declares t) {h : Header}
    (role : Role.ofItem (tokensFrom .start l.pieces) = .type h) :
    IsSoleType (l.ended []).text l.pieces l.strays (stripRight l.gap) h := by
  obtain ⟨closedType, closedStrays⟩ := List.forall_mem_cons.1 declares.closed
  have all : Fits l.items.flatten (stripRight l.gap) := fits_flatten declares.fits _
  have plain : ∀ p ∈ l.items.flatten, p.IsPlain := fun p mem => by
    obtain ⟨ps, inside, mem⟩ := List.mem_flatten.1 mem
    exact declares.closes.plain ps inside p mem
  obtain ⟨b, split, -, -⟩ := stripRight_split l.gap
  have plainGap := IsPlain.of_append (split ▸ declares.closes.plainGap)
  have whole : (l.ended []).text = source l.items.flatten ++ stripRight l.gap := by
    rw [text, behind, Leaf.ended, items, List.flatten_cons, source_append, List.append_nil,
      List.append_assoc]
  rw [whole]
  refine ⟨scanned_of_closed ((isPlain_source all).2 ⟨plain, plainGap⟩) all
    declares.closes.isTail_strip declares.closed,
    fun p mem => ?_, role, closedType, declares.strays,
    fun p last => ?_⟩
  · obtain ⟨ps, inside, mem⟩ := List.mem_flatten.1 mem
    exact declares.solid ps inside p mem
  · rcases List.eq_nil_or_concat l.strays with none | ⟨init, qs, split⟩
    · rw [none] at last
      cases last
    · rw [split, List.concat_eq_append, List.flatten_append, List.flatten_singleton] at last
      have closed := closedStrays qs (by rw [split]; simp)
      have more : qs ≠ [] := by
        rintro rfl
        exact closed.ne_nil rfl
      obtain ⟨q, ends⟩ := Option.isSome_iff_exists.1 (List.getLast?_isSome.2 more)
      rw [List.getLast?_append, ends, Option.some_or] at last
      exact isSealed_last closed (ends.trans last)

theorem Declares.regap (declares : l.Declares t) {blanks gap : Text}
    (split : leadingGap l.pieces = blanks ++ gap) (blank : ∀ c ∈ blanks, c.isBlank = true) :
    (l.replaced (regap gap l.pieces)).Declares t := by
  obtain ⟨p, ps, pieces⟩ := List.exists_cons_of_ne_nil declares.ne_nil
  obtain ⟨fitsType, fitsStrays⟩ := List.forall_mem_cons.1 declares.fits
  obtain ⟨closedType, closedStrays⟩ := List.forall_mem_cons.1 declares.closed
  obtain ⟨solidType, solidStrays⟩ := List.forall_mem_cons.1 declares.solid
  obtain ⟨plainType, plainStrays⟩ := List.forall_mem_cons.1 declares.closes.plain
  have isGap : IsGap gap := by
    have fits := fitsType []
    rw [pieces] at fits split
    exact IsGap.of_append_blank (split ▸ fits.1) blank
  refine ⟨List.forall_mem_cons.2 ⟨fun s => fits_regap (fitsType s) isGap, fitsStrays⟩,
    List.forall_mem_cons.2 ⟨?_, closedStrays⟩,
    List.forall_mem_cons.2 ⟨solid_regap solidType, solidStrays⟩,
    ⟨declares.closes.isTail, List.forall_mem_cons.2 ⟨?_, plainStrays⟩, declares.closes.plainGap⟩,
    ?_, declares.strays⟩
  · show Item.IsClosed ((JavaUnits.regap gap l.pieces).map Piece.token)
    rw [token_regap]
    exact closedType
  · rw [pieces] at plainType split ⊢
    rw [List.forall_mem_cons] at plainType
    exact List.forall_mem_cons.2
      ⟨⟨isPlain_of_append_blank (split ▸ plainType.1.1) blank, plainType.1.2⟩, plainType.2⟩
  · rw [replaced, token_regap]
    exact declares.header

end Leaf

/-- What stands before the type of a text is not all its own if it does not begin the text. -/
theorem IsSoleType.break_notMem {code tail : Text} {ps : List Piece} {items : List (List Piece)}
    {h : Header} (sole : IsSoleType code ps items tail h) {u : CompilationUnit} {t : TypeDecl}
    {part : Part} (shows : Shows u t part) (same : u.code = code)
    (item : part.item = tokensFrom .start ps)
    (pieces : part.pieces = regap (lastLine (leadingGap ps)) ps) (begins : t.span.start = 0) :
    ofChar '\n' ∉ leadingGap ps := by
  have own : Preceding.nothing.own (.type h) (leadingGap ps) = lastLine (leadingGap ps) := by
    simp [Preceding.own, Preceding.isFresh]
  have blocks : blocksFrom .nothing .start tail (ps :: items)
      = [] ++ Preceding.nothing.block (tokensFrom .start ps) (.type h) ps (nextGap tail items)
        :: blocksFrom (Preceding.nothing.after (.type h) ps) (positionFrom .start ps) tail
          items := by
    rw [blocksFrom, sole.role, List.nil_append]
  have spots := spots_blocksFrom sole.placed sole.scanned.nonempty blocks
  simp only [Preceding.block, own] at spots
  have spots' := shows.spots
  rw [same, item, pieces] at spots'
  have start := spots'.start_eq spots (by
    intro none
    have role := sole.role
    rw [none] at role
    cases role)
  have none : Preceding.nothing.kept (.type h) (leadingGap ps) = [] := by
    rw [begins] at start
    exact List.eq_nil_of_length_eq_zero (by simpa using start.symm)
  have split := gap_split .nothing (.type h) (leadingGap ps)
  rw [none, own, Preceding.taken_nothing, List.nil_append, List.nil_append] at split
  rw [← split]
  exact break_notMem_lastLine _

namespace Leaf

variable {u : CompilationUnit} {t : TypeDecl} {part : Part} {l : Leaf} {w : Written}
  {d : TypeSyntax}

theorem Turns.exists_rest (turns : Turns u t part l) (promotes : l.Promotes w d)
    (writable : ∀ i ∈ u.imports, i.IsWritable) (noReturn : ofChar '\r' ∉ u.code) :
    ∃ gap, (l.replaced (regap gap w.hidden.pieces)).Declares t ∧
      (l.replaced (regap gap w.hidden.pieces)).names = u.names t ∧
      ((l.replaced (regap gap w.hidden.pieces)).ended []).text = ofLines (u.hiddenBody t) := by
  obtain ⟨declares, names⟩ := turns.declares_hidden writable noReturn
  have body := turns.hiddenBody_eq
  rw [(promotes.edited turns.toIsPartOf).2] at declares names body
  obtain ⟨p, ps, pieces⟩ := List.exists_cons_of_ne_nil declares.ne_nil
  have pieces : w.hidden.pieces = p :: ps := pieces
  obtain ⟨-, lex, -⟩ : Fits (p :: ps) [] := pieces ▸ declares.fits _ List.mem_cons_self []
  obtain ⟨c, s, lexeme, ink⟩ := lex.head
  have text (gap : Text) : ((l.replaced (regap gap w.hidden.pieces)).ended []).text
      = gap ++ c :: (s ++ (source ps ++ (source l.strays.flatten ++ stripRight l.gap))) := by
    simp only [Leaf.text, behind, Leaf.ended, replaced, pieces, regap, source_cons, lexeme,
      List.append_nil, List.append_assoc, List.cons_append]
  have own : regap p.gap w.hidden.pieces = w.hidden.pieces := by rw [pieces]; rfl
  have whole := text p.gap
  rw [own, Leaf.text_ended declares.fits declares.ne_nil, List.append_nil] at whole
  obtain ⟨blanks, gap, split, blank, trimmed⟩ :=
    @Text.exists_trimmed p.gap (s ++ (source ps ++ (source l.strays.flatten ++ stripRight l.gap)))
      c (by simpa [isInk] using ink) (by
        obtain ⟨-, -, -, last⟩ := stripRight_split (l.replaced w.hidden.pieces).text
        rw [whole] at last
        intro e ends
        exact last e (by rw [List.getLast?_append, ends, Option.some_or]))
  rw [← whole, ← body, ← text] at trimmed
  refine ⟨gap, declares.regap (by rw [replaced, pieces]; exact split) blank, ?_, trimmed.symm⟩
  rw [← turns.names_eq] at names
  rw [← names]
  exact names_of_head rfl (congrArg _ (token_regap gap w.hidden.pieces))

theorem Declares.hiddenBody_eq (rest : l.Declares t)
    (text : (l.ended []).text = ofLines (u.hiddenBody t)) :
    u.hiddenBody t = Text.lines (stripRight l.text) := by
  have shown : u.hiddenBody t ≠ [] := by
    intro none
    obtain ⟨p, ps, pieces⟩ := List.exists_cons_of_ne_nil rest.ne_nil
    obtain ⟨-, lex, -⟩ : Fits (p :: ps) [] := pieces ▸ rest.fits _ List.mem_cons_self []
    rw [none, Leaf.text, Leaf.ended, pieces, source_cons] at text
    exact lex.ne_nil (by simp_all [ofLines, join])
  have trimmed : IsTrimmed (u.hiddenBody t) := isTrimmed_trimBlankLines shown
  rw [← List.append_nil (stripRight l.text), ← Leaf.text_ended rest.fits rest.ne_nil, text,
    lines_ofLines trimmed.ne_nil trimmed.within]

/-- What is left of a steady type can be made public. -/
theorem Declares.exists_promotes (rest : l.Declares t) (sound : d.IsSound)
    (tokens : l.pieces.map Piece.token = d.tokens)
    (text : (l.ended []).text = ofLines (u.hiddenBody t)) (noReturn : ofChar '\r' ∉ u.code)
    (steady : u.IsSteady t) : ∃ w, l.Promotes w d := by
  obtain ⟨w, pieces, -, declares⟩ := Written.exists_declares sound tokens []
  obtain ⟨h, role⟩ : ∃ h, Role.ofItem (tokensFrom .start l.pieces) = .type h := by
    have bare := Role.ofItem_bare (tokensFrom .start l.pieces)
    rw [bare_tokensFrom, tokens, sound.role] at bare
    cases found : Role.ofItem (tokensFrom .start l.pieces) with
    | type h => exact ⟨h, rfl⟩
    | _ => rw [found] at bare; cases bare
  have sole := rest.isSole role
  have noReturn' : ofChar '\r' ∉ (l.ended []).text := by
    rw [text]
    exact fun mem => noReturn (mem_hiddenBody mem)
  obtain ⟨u', t', part', parsed, types, shows, -, item, same, -⟩ := sole.exists_unit noReturn'
  have code := (code_of_parse parsed).trans (unifyBreaks_of_notMem noReturn')
  rw [text] at parsed
  obtain ⟨begins, loose⟩ := steady u' (toOption_eq_some.2 parsed) t' (by rw [types]; simp)
  have within := sole.break_notMem shows code item same begins
  have fits := rest.fits _ List.mem_cons_self
  have unchanged : part'.pieces = w.pieces := by
    rw [same, lastLine_of_noBreak within, regap_leadingGap, pieces]
  have ink : ∀ q ∈ part'.pieces, q.IsInk := by
    rw [unchanged, pieces]
    exact (fits []).isInk
  refine ⟨w, pieces, declares, ⟨rest.fits, rest.closed, rest.solid, within, ?_, rest.strays⟩,
    rest.closes, fun s => ?_⟩
  · rw [tokens, sound.role]
    rfl
  · rw [← (shows.edited_written ink unchanged declares).1]
    refine shows.fits_public ?_ loose
    rw [unchanged, pieces]
    exact fits s

/-- Whether the leaf is the type without its visibility. -/
def Hides (u : CompilationUnit) (t : TypeDecl) (l : Leaf) : Prop :=
  ∃ w d, Renders u t l w d ∧ w.visible = none ∧
    u.hiddenBody t = Text.lines (stripRight l.text)

/-- A steady type leaves a leaf when its visibility goes. -/
theorem Turns.exists_hides (turns : Turns u t part l) (promotes : l.Promotes w d)
    (writable : ∀ i ∈ u.imports, i.IsWritable) (noReturn : ofChar '\r' ∉ u.code)
    (steady : u.IsSteady t) : ∃ l' : Leaf, l'.Hides u t := by
  obtain ⟨gap, rest, names, text⟩ := turns.exists_rest promotes writable noReturn
  obtain ⟨ms, sound, tokens, missing⟩ := promotes.declares.exists_marks
  rw [← token_regap gap] at tokens
  obtain ⟨w', promotes'⟩ := rest.exists_promotes sound tokens text noReturn steady
  refine ⟨_, w', _, ⟨promotes', (promotes.name_eq turns.toIsPartOf).symm,
    (promotes.declaresMain_eq turns.toIsPartOf).symm, names⟩, ?_, rest.hiddenBody_eq text⟩
  obtain ⟨back, turns', -⟩ := promotes'.declares.turns
  rw [turns'.visibilityToken] at missing
  exact Option.map_eq_none_iff.1 missing

end Leaf

end JavaUnits
