import JavaUnits.Proofs.EntryPoint
import JavaUnits.Proofs.Leaves

/-!
The files of a text as imports and one leaf each, which is a type made public. A merge takes the
type from its file as it is there, or without its visibility, and in either case what it takes can
be told from the text that was split.
-/

namespace JavaUnits

open CodePoint Token Scan Text CompilationUnit

/-! ## Imports that are read as they are written -/

theorem Token.IsGap.head {c : CodePoint} {s : Text} (isGap : IsGap (c :: s)) :
    c.isBlank = true ∨ c = ofChar '/' := by
  generalize whole : c :: s = g at isGap
  cases isGap with
  | nil => cases whole
  | blank blank => exact .inl ((List.cons.inj whole).1 ▸ blank)
  | line => exact .inr (List.cons.inj whole).1
  | block => exact .inr (List.cons.inj whole).1

theorem three_le_of_isTail {t : Text} (isTail : IsTail t) (last : t.getLast? = some (ofChar ';')) :
    3 ≤ t.length := by
  rcases isTail with isGap | ⟨gap, body, -, -, rfl⟩
  · exact absurd last (isGap.last_ne (by decide) (by decide))
  · cases body with
    | nil =>
      rw [List.getLast?_append] at last
      exact absurd (Option.some.inj last) (by decide)
    | cons c body => simp; omega

theorem length_lexemes_le {ps : List Piece} {ts : List Token}
    (tokens : ps.map Piece.token = ts.map Token.bare) :
    (ts.flatMap Token.value).length ≤ (source ps).length := by
  induction ps generalizing ts with
  | nil =>
    obtain rfl := List.map_eq_nil_iff.1 tokens.symm
    simp
  | cons p ps ih =>
    obtain ⟨t, ts, rfl, same, later⟩ := List.map_eq_cons_iff.1 tokens.symm
    have value : t.value = p.lexeme := congrArg Token.value same
    have := ih later.symm
    simp only [List.flatMap_cons, source_cons, List.length_append, value]
    omega

theorem length_joinValues_le (ts : List Token) :
    (Item.joinValues ts).length ≤ (ts.flatMap Token.value).length := by
  induction ts with
  | nil => simp [Item.joinValues]
  | cons t ts ih =>
    rw [Item.joinValues] at ih ⊢
    rw [List.filter_cons]
    split <;> simp only [List.flatMap_cons, List.length_append] <;> omega

/-- What an import is written with behind its keyword is hardly longer than what it is read from. -/
theorem Import.exists_text {first : Token} {rest : List Token} :
    ∃ s : Text, (ofItem (first :: rest)).text = Text.ofString "import" ++ ofChar ' ' :: s ∧
      s.length ≤ (rest.flatMap Token.value).length + (if rest.isEmpty then 1 else 2) ∧
      s.getLast? = some (ofChar ';') := by
  cases rest with
  | nil => exact ⟨[ofChar ';'], rfl, by simp, rfl⟩
  | cons t rest =>
    have joined := length_joinValues_le (t :: rest)
    have later := length_joinValues_le rest
    rw [ofItem, List.drop_one, List.tail_cons]
    by_cases isStatic : (t.isModifier && t.value == Text.ofString "static") = true
    · simp only [if_pos isStatic]
      rw [Bool.and_eq_true, beq_iff_eq] at isStatic
      refine ⟨Text.ofString "static " ++ Item.joinValues rest ++ Text.ofString ";", ?_, ?_, ?_⟩
      · simp [text, Text.ofString]
      · have length : (Text.ofString "static ").length = 7 := rfl
        have mark : (Text.ofString ";").length = 1 := rfl
        have word : t.value.length = 6 := by rw [isStatic.2]; rfl
        simp only [List.length_append, List.flatMap_cons, length, mark, word, List.isEmpty_cons]
        rw [if_neg (by decide)]
        omega
      · rw [List.getLast?_append]
        rfl
    · simp only [if_neg isStatic]
      refine ⟨Item.joinValues (t :: rest) ++ Text.ofString ";", ?_, ?_, ?_⟩
      · simp [text, Text.ofString]
      · have mark : (Text.ofString ";").length = 1 := rfl
        rw [List.length_append, mark, List.isEmpty_cons, if_neg (by decide)]
        omega
      · rw [List.getLast?_append]
        rfl

/-- An import that is read as it was is written on a line of its own, with nothing behind it. -/
theorem exists_importLine_of_reads {item : Item} {i : Import} (found : item.import? = some i)
    (closed : item.IsClosed) (solid : ∀ t ∈ item, ofChar '\n' ∉ t.value)
    (reads : Reads i.text (item.map Token.bare)) :
    ∃ ps, IsImportLine i.text ps ∧ Import.ofItem (ps.map Piece.token) = i := by
  obtain ⟨role, rfl⟩ := Item.import?_eq_some found
  obtain ⟨qs, g, whole, fits, isTail, -, tokens⟩ := reads
  obtain ⟨first, rest, rfl⟩ := List.exists_cons_of_ne_nil closed.ne_nil
  obtain ⟨s, text, short, last⟩ := @Import.exists_text first rest
  obtain ⟨q, qs, rfl, token, later⟩ := List.map_eq_cons_iff.1 tokens
  have word : q.lexeme = Text.ofString "import" := by
    rw [Role.ofItem] at role
    split at role
    · cases role
    split at role
    · rename_i isImport
      rw [isKeyword, Bool.and_eq_true, beq_iff_eq] at isImport
      exact (congrArg Token.value token).trans isImport.2
    · split at role <;> cases role
  obtain ⟨isGap, lex, fitsLater⟩ := fits
  have begins : q.gap = [] := by
    cases gap : q.gap with
    | nil => rfl
    | cons c gap' =>
      rw [gap] at isGap
      rw [text, source_cons, gap] at whole
      obtain rfl : ofChar 'i' = c := (List.cons.inj whole).1
      rcases isGap.head with blank | slash
      · exact absurd blank (by decide)
      · exact absurd slash (by decide)
  have behind : ofChar ' ' :: s = source qs ++ g := by
    rw [text, source_cons, begins, word, List.nil_append, List.append_assoc] at whole
    exact List.append_cancel_left whole
  have none : g = [] := by
    by_contra more
    have ends : g.getLast? = some (ofChar ';') := by
      have ends := congrArg List.getLast? behind
      rw [List.getLast?_append, List.getLast?_cons, last] at ends
      obtain ⟨c, is⟩ := Option.isSome_iff_exists.1 (List.getLast?_isSome.2 more)
      rw [is] at ends ⊢
      exact ends.symm
    have long := three_le_of_isTail isTail ends
    have lengths := congrArg List.length behind
    have fits := length_lexemes_le later
    rw [List.length_cons, List.length_append] at lengths
    have spaced : (rest.flatMap Token.value).length + 1 ≤ (source qs).length ∨ qs = [] := by
      cases qs with
      | nil => exact .inr rfl
      | cons r qs =>
        obtain ⟨-, lex, -⟩ := fitsLater
        obtain ⟨c, u, lexeme, ink⟩ := lex.head
        left
        cases gap : r.gap with
        | nil =>
          rw [source_cons, gap, lexeme] at behind
          have same : ofChar ' ' = c := (List.cons.inj behind).1
          rw [← same] at ink
          exact absurd ink (by decide)
        | cons d gap' =>
          have inner := @length_lexemes_le (⟨[], r.kind, r.lexeme⟩ :: qs) rest later
          rw [source_cons] at inner ⊢
          rw [gap]
          simp only [List.length_append, List.length_nil, List.length_cons] at inner ⊢
          omega
    rcases spaced with spaced | rfl
    · split at short <;> omega
    · obtain rfl := List.map_eq_nil_iff.1 later.symm
      simp only [source_nil, List.length_nil, List.flatMap_nil, List.isEmpty_nil, if_true]
        at lengths short
      omega
  subst none
  rw [List.append_nil] at whole
  refine ⟨q :: qs, ⟨whole.symm, begins, fun t => ?_, fun p mem => ?_, ?_, ?_, ?_⟩, ?_⟩
  · have all : Fits (q :: qs) [] := ⟨isGap, lex, fitsLater⟩
    exact all.of_isClosed (by rw [tokens, Item.isClosed_bare]; exact closed) t
  · have mem := List.mem_map_of_mem (f := Piece.token) mem
    rw [tokens] at mem
    obtain ⟨t, inside, same⟩ := List.mem_map.1 mem
    have value : t.value = p.lexeme := congrArg Token.value same
    exact value ▸ solid t inside
  · rw [tokens, Item.isClosed_bare]
    exact closed
  · rw [tokens, Role.ofItem_bare, role, Import.ofItem_bare]
    rfl
  · rw [tokens, Import.ofItem_bare]
  · rw [tokens, Import.ofItem_bare]

/-! ## Parts of a text as leaves -/

namespace Scan

variable {pss : List (List Piece)} {s : Text}

theorem fits_flatten (fits : ∀ ps ∈ pss, ∀ s, Fits ps s) (s : Text) : Fits pss.flatten s := by
  induction pss with
  | nil => trivial
  | cons ps pss ih =>
    rw [List.forall_mem_cons] at fits
    rw [List.flatten_cons, fits_append]
    exact ⟨fits.1 _, ih fits.2⟩

theorem Fits.exists_of_mem (fits : Fits pss.flatten s) {ps : List Piece} (mem : ps ∈ pss) :
    ∃ t, Fits ps t := by
  induction pss with
  | nil => cases mem
  | cons qs pss ih =>
    rw [List.flatten_cons, fits_append] at fits
    rcases List.mem_cons.1 mem with rfl | mem
    · exact ⟨_, fits.1⟩
    · exact ih fits.2 mem

end Scan

theorem exists_pieces_of_flatten {ps : List Piece} {items : List (List Token)}
    (tokens : ps.map Piece.token = items.flatten) :
    ∃ pss : List (List Piece), ps = pss.flatten ∧ pss.map (List.map Piece.token) = items := by
  induction items generalizing ps with
  | nil => exact ⟨[], by simpa using tokens, rfl⟩
  | cons item items ih =>
    obtain ⟨qs, rs, rfl, here, later⟩ := List.map_eq_append_iff.1 tokens
    obtain ⟨pss, rfl, same⟩ := ih later
    exact ⟨qs :: pss, rfl, by rw [List.map_cons, here, same]⟩

theorem break_notMem_own (pre : Preceding) (h : Header) (gap : Text) :
    ofChar '\n' ∉ pre.own (.type h) gap := by
  rw [Preceding.own]
  split
  · exact break_notMem_lastLine gap
  · rename_i stale
    intro mem
    have mem := (List.dropWhile_suffix _).subset mem
    rw [Preceding.isFresh, List.contains_iff_mem.2 mem, Bool.or_true] at stale
    exact stale rfl

theorem leadingGap_regap (gap : Text) {ps : List Piece} (more : ps ≠ []) :
    leadingGap (regap gap ps) = gap := by
  cases ps with
  | nil => exact absurd rfl more
  | cons p ps => rfl

theorem Scanned.within_part {code tail : Text} {items : List (List Piece)}
    (scanned : Scanned code items tail) {part : Part}
    (mem : part ∈ partsFrom (restOf items tail) (blocksOf items tail)) :
    ofChar '\n' ∉ leadingGap part.pieces := by
  obtain ⟨xs, b, ys, h, split, role, rfl⟩ := mem_partsFrom mem
  obtain ⟨fronts, ps, backs, pre, rfl, rfl, -⟩ := blocksFrom_eq_append scanned.nonempty split
  have role : Role.ofItem _ = .type h := role
  simp only [Preceding.block]
  rw [role, leadingGap_regap _ (scanned.nonempty ps (by simp))]
  exact break_notMem_own pre h _

namespace Leaf

/-- Whether the leaf has no escapes, and only a gap behind it that may end in a comment. -/
structure Closes (l : Leaf) : Prop where
  isTail : IsTail l.gap
  plain : ∀ ps ∈ l.items, ∀ p ∈ ps, p.IsPlain
  plainGap : l.gap.IsPlain

/-- Whether the leaf is the type's part of the text, and stays what it is when the type is made
public and when `public` goes again. -/
structure Turns (u : CompilationUnit) (t : TypeDecl) (part : Part) (l : Leaf) : Prop
    extends IsPartOf u t part l where
  sound : l.IsSound
  closes : l.Closes
  opens : ∀ s, Fits (part.header.publishPieces part.item part.pieces) s
  detaches : (part.header.publish part.item).Detaches

end Leaf

/-- The types of a text that can be split are leaves: each its declaration with the strays behind
it. -/
theorem Text.IsSeparable.exists_leaves {s : Text} {u : CompilationUnit}
    (separable : s.IsSeparable u) (parsed : parse s = .ok u) :
    List.Forall₂ (fun t (d : Declared) => ∃ part l, Leaf.Turns u t part l ∧ part.item = d.item ∧
        l.strays.map (List.map Piece.token) = d.strays.map (List.map Token.bare))
      u.types (Declared.ofItems s.items) := by
  obtain ⟨items, tail, scanned, placed, whole, same⟩ :=
    (separable.isPlaced parsed).exists_scanned parsed
  have parts := scanned.parts_read placed
  rw [← whole] at parts
  have declarations := partsFrom_blocksFrom .nothing .start tail items (restOf items tail)
  rw [← same] at declarations
  rw [← declarations, List.forall₂_map_right_iff]
  refine List.forall₂_iff_zip.2 ⟨parts.length_eq, fun {t part} mem => ?_⟩
  obtain ⟨shows, ink, read⟩ := (List.forall₂_iff_zip.1 parts).2 mem
  obtain ⟨isType, isPart⟩ := List.of_mem_zip mem
  have holds := scanned.holds (whole ▸ separable.apart) part isPart
  have declared : (⟨part.header, part.item, part.strays⟩ : Declared)
      ∈ Declared.ofItems s.items := by
    rw [← declarations]
    exact List.mem_map_of_mem isPart
  obtain ⟨inside, role, strays⟩ := Declared.mem_ofItems declared
  obtain ⟨ps, g, trailing, fits, isTail, plain, tokens⟩ := holds.trailing
  rw [List.map_flatten] at tokens
  obtain ⟨pss, rfl, stray⟩ := exists_pieces_of_flatten tokens
  obtain ⟨plainStrays, plainGap⟩ := (isPlain_source fits).1 (trailing ▸ plain)
  have closed : Item.IsClosed (part.pieces.map Piece.token) := by
    rw [shows.tokens, Item.isClosed_bare]
    exact separable.closed _ inside
  have fitsType := holds.fits.of_isClosed closed
  have solid {item : Item} (mem : item ∈ s.items) {qs : List Piece}
      (tokens : qs.map Piece.token = item.map Token.bare) : ∀ p ∈ qs, ofChar '\n' ∉ p.lexeme := by
    intro p isPiece
    have token := List.mem_map_of_mem (f := Piece.token) isPiece
    rw [tokens] at token
    obtain ⟨t, isToken, same⟩ := List.mem_map.1 token
    have value : t.value = p.lexeme := congrArg Token.value same
    exact value ▸ separable.solid item mem t isToken
  have ofStray {qs : List Piece} (mem : qs ∈ pss) : ∃ item ∈ s.items,
      qs.map Piece.token = item.map Token.bare ∧ Role.ofItem item = .stray := by
    have mem := List.mem_map_of_mem (f := List.map Piece.token) mem
    rw [stray] at mem
    obtain ⟨item, isStray, tokens⟩ := List.mem_map.1 mem
    exact ⟨item, (strays item isStray).1, tokens.symm, (strays item isStray).2⟩
  have closedStray : ∀ qs ∈ pss, Item.IsClosed (qs.map Piece.token) := by
    intro qs mem
    obtain ⟨item, isItem, tokens, -⟩ := ofStray mem
    rw [tokens, Item.isClosed_bare]
    exact separable.closed item isItem
  have published : part.item.published = part.header.publish part.item := by
    rw [Item.published, Item.header?, role]
    rfl
  refine ⟨part, ⟨part.pieces, pss, g⟩, ⟨⟨shows, ink, read, rfl, trailing⟩,
    ⟨?_, ?_, ?_, scanned.within_part isPart, ?_, ?_⟩, ⟨isTail, ?_, plainGap⟩,
    fun s => shows.fits_public (fitsType s) (separable.loose t isType),
    published ▸ separable.detaches _ inside⟩, rfl, stray⟩
  · refine List.forall_mem_cons.2 ⟨fitsType, fun qs mem => ?_⟩
    obtain ⟨t, fits⟩ := fits.exists_of_mem mem
    exact fits.of_isClosed (closedStray qs mem)
  · exact List.forall_mem_cons.2 ⟨closed, closedStray⟩
  · refine List.forall_mem_cons.2 ⟨solid inside shows.tokens, fun qs mem => ?_⟩
    obtain ⟨item, isItem, tokens, -⟩ := ofStray mem
    exact solid isItem tokens
  · rw [shows.tokens, Role.ofItem_bare, role]
    rfl
  · intro qs mem
    obtain ⟨item, -, tokens, isStray⟩ := ofStray mem
    rw [tokens, Role.ofItem_bare, isStray]
    rfl
  · exact List.forall_mem_cons.2 ⟨holds.plain, fun qs mem p isPiece =>
      plainStrays p (List.mem_flatten_of_mem mem isPiece)⟩

/-! ## Leaves whose last line is ended -/

namespace Leaf

variable {l : Leaf} {breaks : Text}

/-- The leaf with line breaks for the blanks at its end. -/
def ended (breaks : Text) (l : Leaf) : Leaf :=
  ⟨l.pieces, l.strays, stripRight l.gap ++ breaks⟩

theorem text_ended (fits : ∀ ps ∈ l.items, ∀ s, Fits ps s) (more : l.pieces ≠ [])
    (breaks : Text) : (l.ended breaks).text = stripRight l.text ++ breaks := by
  have all : Fits (l.pieces ++ l.strays.flatten) l.gap := fits_flatten fits l.gap
  have stripped := stripRight_source all (by simp [more])
  rw [source_append, List.append_assoc, List.append_assoc] at stripped
  rw [text, behind, text, behind, stripped]
  simp only [ended, List.append_assoc]

theorem IsSound.ended (sound : l.IsSound) (breaks : Text) : (l.ended breaks).IsSound where
  fits := sound.fits
  closed := sound.closed
  solid := sound.solid
  within := sound.within
  isType := sound.isType
  strays := sound.strays

theorem IsSound.text_ended (sound : l.IsSound) (breaks : Text) :
    (l.ended breaks).text = stripRight l.text ++ breaks :=
  Leaf.text_ended sound.fits sound.ne_nil breaks

theorem Closes.isTail_strip (closes : l.Closes) : IsTail (stripRight l.gap) := by
  obtain ⟨b, split, blank, -⟩ := stripRight_split l.gap
  exact IsTail.of_append_blanks (split ▸ closes.isTail) blank

theorem Closes.ends (closes : l.Closes)
    (isBreaks : breaks = [ofChar '\n'] ∨ breaks = [ofChar '\n', ofChar '\n']) :
    (l.ended breaks).Ends := by
  have first := closes.isTail_strip.append_break
  show Ends ⟨l.pieces, l.strays, stripRight l.gap ++ breaks⟩
  rcases isBreaks with rfl | rfl
  · exact ⟨first, by rw [lastLine_append, if_pos (by decide)]; decide, by simp⟩
  · refine ⟨?_, by rw [lastLine_append, if_pos (by decide)]; decide, by simp⟩
    rw [show [ofChar '\n', ofChar '\n'] = [ofChar '\n'] ++ [ofChar '\n'] from rfl,
      ← List.append_assoc]
    exact first.append (.of_blank (by decide))

theorem Closes.isPlain_text (closes : l.Closes) (sound : l.IsSound)
    (isBreaks : breaks = [ofChar '\n'] ∨ breaks = [ofChar '\n', ofChar '\n']) :
    (l.ended breaks).text.IsPlain := by
  have plain : ∀ p ∈ l.pieces ++ l.strays.flatten, p.IsPlain := fun p mem => by
    obtain ⟨ps, inside, mem⟩ := List.mem_flatten.1 (show p ∈ l.items.flatten from mem)
    exact closes.plain ps inside p mem
  have all : (source (l.pieces ++ l.strays.flatten) ++ l.gap).IsPlain :=
    (isPlain_source (fits_flatten sound.fits l.gap)).2 ⟨plain, closes.plainGap⟩
  rw [sound.text_ended, text, behind, ← List.append_assoc, ← source_append]
  obtain ⟨b, split, -, -⟩ := stripRight_split (source (l.pieces ++ l.strays.flatten) ++ l.gap)
  have stripped := IsPlain.of_append (split ▸ all)
  rcases isBreaks with rfl | rfl
  · exact stripped.append_break
  · simpa using stripped.append_break.append_break

theorem IsSound.isTrimmed (sound : l.IsSound) : IsTrimmed (Text.lines (stripRight l.text)) := by
  obtain ⟨p, ps, pieces⟩ := List.exists_cons_of_ne_nil sound.ne_nil
  have whole := sound.text_ended []
  obtain ⟨-, -, -, last⟩ := stripRight_split l.text
  obtain ⟨c, s, lexeme, ink⟩ : p.IsInk :=
    (sound.fits l.pieces List.mem_cons_self []).isInk p (by simp [pieces])
  have within := sound.within
  rw [List.append_nil] at whole
  rw [← whole, text, Leaf.ended] at last ⊢
  simp only [pieces, source_cons, lexeme, List.cons_append, List.append_assoc] at last ⊢
  rw [pieces] at within
  exact isTrimmed_lines within ink last

end Leaf

/-! ## Types made public, and without their visibility -/

/-- The lines of a type without its visibility and the blanks behind that, blank lines at either end
left out. -/
def CompilationUnit.hiddenBody (u : CompilationUnit) (t : TypeDecl) : List Text :=
  trimBlankLines (Text.lines (stripRight (u.text t.span (hideEdit? u.code t).toList)))

namespace Leaf

variable {u : CompilationUnit} {t : TypeDecl} {part : Part} {l : Leaf}

def published (part : Part) (l : Leaf) : Leaf :=
  ⟨part.header.publishPieces part.item part.pieces, l.strays, l.gap⟩

def hidden (part : Part) (l : Leaf) : Leaf :=
  ⟨part.header.concealPieces part.item part.pieces, l.strays, l.gap⟩

theorem IsPartOf.publicBody_eq (isPart : IsPartOf u t part l) :
    u.publicBody t = Text.lines (stripRight (l.published part).text) := by
  rw [publicBody, isPart.shows.text_eq (isPart.shows.edited_public isPart.ink), isPart.trailing]
  rfl

theorem IsPartOf.hiddenBody_eq (isPart : IsPartOf u t part l) :
    u.hiddenBody t = trimBlankLines (Text.lines (stripRight (l.hidden part).text)) := by
  rw [hiddenBody, isPart.shows.text_eq (isPart.shows.edited_hide isPart.ink), isPart.trailing]
  rfl

namespace Turns

theorem exists_header (turns : Turns u t part l) :
    ∃ h, Role.ofItem ((l.published part).pieces.map Piece.token) = .type h ∧ h.name = t.name ∧
      h.declaresMain = t.header.declaresMain ∧ h.visibility = .publicAccess := by
  obtain ⟨h, found, name, -, main, isPublic, -⟩ :=
    Header.exists_publish (Role.ofItem_eq_type turns.shows.found) turns.read
  refine ⟨h.bare, ?_, ?_, ?_, (Header.visibility_bare h).trans isPublic⟩
  · rw [published, Header.token_publishPieces turns.shows.tokens, Role.ofItem_bare,
      Header.ofItem_publish turns.shows.found found]
    rfl
  · exact name.trans (congrArg Header.name turns.shows.header).symm
  · exact main.trans (congrArg Header.declaresMain turns.shows.header).symm

theorem isSound_published (turns : Turns u t part l) : (l.published part).IsSound := by
  have sound := turns.sound
  obtain ⟨-, -, -, -, -, -, closed⟩ :=
    Header.exists_publish (Role.ofItem_eq_type turns.shows.found) turns.read
  obtain ⟨h, role, -⟩ := turns.exists_header
  obtain ⟨-, fitsStrays⟩ := List.forall_mem_cons.1 sound.fits
  obtain ⟨closedType, closedStrays⟩ := List.forall_mem_cons.1 sound.closed
  obtain ⟨solidType, solidStrays⟩ := List.forall_mem_cons.1 sound.solid
  rw [← turns.pieces] at closedType solidType
  refine ⟨List.forall_mem_cons.2 ⟨turns.opens, fitsStrays⟩,
    List.forall_mem_cons.2 ⟨?_, closedStrays⟩,
    List.forall_mem_cons.2 ⟨Header.solid_publishPieces solidType, solidStrays⟩, ?_, ?_,
    sound.strays⟩
  · rw [published, Header.token_publishPieces turns.shows.tokens, Item.isClosed_bare]
    rw [turns.shows.tokens, Item.isClosed_bare] at closedType
    exact closed closedType
  · rw [published, Header.leadingGap_publishPieces, turns.pieces]
    exact sound.within
  · rw [role]
    rfl

theorem closes_published (turns : Turns u t part l) : (l.published part).Closes := by
  obtain ⟨plainType, plainStrays⟩ := List.forall_mem_cons.1 turns.closes.plain
  rw [← turns.pieces] at plainType
  exact ⟨turns.closes.isTail,
    List.forall_mem_cons.2 ⟨Header.isPlain_publishPieces plainType, plainStrays⟩,
    turns.closes.plainGap⟩

end Turns

end Leaf

/-! ## The file of a type -/

/-- Whether the import is read as it is written on a line of its own. -/
structure Import.IsWritable (i : Import) : Prop where
  plain : i.text.IsPlain
  noReturn : ofChar '\r' ∉ i.text
  line : ∃ ps, IsImportLine i.text ps ∧ Import.ofItem (ps.map Piece.token) = i

theorem Import.exists_importLines {imports : List Import}
    (writable : ∀ i ∈ imports, i.IsWritable) :
    ∃ items, List.Forall₂ IsImportLine (imports.map text) items ∧
      items.map (fun ps => ofItem (ps.map Piece.token)) = imports := by
  induction imports with
  | nil => exact ⟨[], .nil, rfl⟩
  | cons i imports ih =>
    rw [List.forall_mem_cons] at writable
    obtain ⟨ps, isLine, same⟩ := writable.1.line
    obtain ⟨items, all, rest⟩ := ih writable.2
    exact ⟨ps :: items, .cons isLine all, by rw [List.map_cons, same, rest]⟩

/-- The imports of a text that can be split are written as they are read. -/
theorem Text.IsSeparable.isWritable {s : Text} {u : CompilationUnit} (separable : s.IsSeparable u)
    (parsed : parse s = .ok u) : ∀ i ∈ u.imports, i.IsWritable := by
  have isPlaced := separable.isPlaced parsed
  obtain ⟨items, tail, scanned, placed, -, same⟩ := isPlaced.exists_scanned parsed
  intro i mem
  rw [isPlaced.imports_eq parsed] at mem
  obtain ⟨item, inside, found⟩ := List.mem_filterMap.1 mem
  obtain ⟨-, rfl⟩ := Item.import?_eq_some found
  have plain := scanned.plain_values
  rw [← same] at plain
  refine ⟨Import.isPlain_ofItem (plain item inside), fun mem => ?_,
    exists_importLine_of_reads found (separable.closed item inside) (separable.solid item inside)
      (scanned.reads_import (same ▸ inside) (separable.returns item inside) found)⟩
  rcases Import.mem_text mem with mem | ⟨t, isToken, mem⟩
  · exact absurd mem (by decide)
  · exact s.notMem_unifyBreaks (isPlaced.mem_code parsed inside isToken mem)

theorem SplitFiles.noReturn_fileText {u : CompilationUnit} {t : TypeDecl}
    (writable : ∀ i ∈ u.imports, i.IsWritable) (noReturn : ofChar '\r' ∉ u.code) :
    ofChar '\r' ∉ fileText u t := by
  intro mem
  rcases mem_fileText mem with is | ⟨i, imported, mem⟩ | mem | mem
  · exact absurd is (by decide)
  · exact (writable i imported).noReturn mem
  · exact noReturn mem
  · exact absurd mem (by decide)

namespace Leaf.Turns

variable {u : CompilationUnit} {t : TypeDecl} {part : Part} {l : Leaf}

theorem fileText_eq (turns : Turns u t part l) : SplitFiles.fileText u t
    = sheet (u.imports.map Import.text) [(l.published part).ended [ofChar '\n']] := by
  have body := turns.shows.text_eq (turns.shows.edited_public turns.ink)
  rw [turns.trailing] at body
  rw [SplitFiles.fileText_eq, body, sheet, importPart, List.flatMap_map, List.isEmpty_map,
    List.flatMap_singleton, turns.isSound_published.text_ended, List.append_assoc]
  rfl

theorem plain_fileText (turns : Turns u t part l) (writable : ∀ i ∈ u.imports, i.IsWritable) :
    (SplitFiles.fileText u t).IsPlain := by
  obtain ⟨plain, last⟩ := isPlain_importPart fun line (mem : line ∈ u.imports.map Import.text) => by
    obtain ⟨i, imported, rfl⟩ := List.mem_map.1 mem
    exact (writable i imported).plain
  rw [turns.fileText_eq, sheet, List.flatMap_singleton, isPlain_append last]
  exact ⟨plain, turns.closes_published.isPlain_text turns.isSound_published (.inl rfl)⟩

theorem demotePieces_eq (turns : Turns u t part l) {u' : CompilationUnit} {t' : TypeDecl}
    {part' : Part} {l' : Leaf} (turned : IsPartOf u' t' part' l')
    (published : l'.pieces = (l.published part).pieces)
    (isPublic : part'.header.visibility = .publicAccess) :
    part'.header.demotePieces part'.item part'.pieces = (l.hidden part).pieces ∧
      (∀ ps ∈ (l.hidden part).items, ∀ s, Fits ps s) ∧ (l.hidden part).pieces ≠ [] := by
  have pieces : part'.pieces = part.header.publishPieces part.item part.pieces :=
    turned.pieces.trans published
  have tokens := turned.shows.tokens
  rw [pieces, Header.token_publishPieces turns.shows.tokens] at tokens
  have found := Role.ofItem_eq_type turned.shows.found
  have same : part'.header.demotePieces part'.item part'.pieces = (l.hidden part).pieces := by
    rw [Header.demotePieces, if_pos isPublic, pieces]
    exact Header.concealPieces_publishPieces (Role.ofItem_eq_type turns.shows.found) turns.read
      turns.shows.tokens found turned.read isPublic tokens.symm
  have detaches : part'.item.Detaches := by
    rw [← Item.detaches_bare, ← tokens, Item.detaches_bare]
    exact turns.detaches
  have plain := turns.closes_published.plain _ List.mem_cons_self
  have fits (s : Text) := Header.fits_demotePieces found turned.read.nodup turned.shows.tokens
    detaches (pieces ▸ turns.opens s) (pieces ▸ plain)
  rw [same] at fits
  refine ⟨same, List.forall_mem_cons.2
    ⟨fun s => (fits s).1, (List.forall_mem_cons.1 turns.sound.fits).2⟩, ?_⟩
  rw [← same]
  exact Header.demotePieces_ne_nil found turned.read.nodup turned.shows.tokens
    (pieces ▸ turns.opens [])

theorem exists_parse_file (turns : Turns u t part l) (writable : ∀ i ∈ u.imports, i.IsWritable)
    (noReturn : ofChar '\r' ∉ u.code) :
    ∃ u' t' part', parse (SplitFiles.fileText u t) = .ok u' ∧ u'.imports = u.imports ∧
      u'.types = [t'] ∧ IsPartOf u' t' part' ((l.published part).ended [ofChar '\n']) ∧
      part'.header.visibility = .publicAccess ∧ part'.header.name = t.name ∧
      part'.header.declaresMain = t.header.declaresMain ∧
      ∀ demoted, u'.body demoted = trimBlankLines (Text.lines
        (source (part'.header.bodyPieces demoted part'.item part'.pieces)
          ++ ((l.published part).ended [ofChar '\n']).behind)) := by
  have sound := turns.isSound_published
  have closes := turns.closes_published
  obtain ⟨items, all, same⟩ := Import.exists_importLines writable
  have noReturn := @SplitFiles.noReturn_fileText u t writable noReturn
  have plain := turns.plain_fileText writable
  rw [turns.fileText_eq] at plain noReturn ⊢
  obtain ⟨u', t', part', parsed, imports, types, turned, body⟩ :=
    exists_parse_leaf all ⟨sound.ended _, closes.ends (.inl rfl)⟩ plain noReturn
  obtain ⟨h, role, name, main, isPublic⟩ := turns.exists_header
  have header : part'.header.bare = h.bare := by
    have tokens := turned.shows.tokens
    rw [turned.pieces] at tokens
    have role' : Role.ofItem ((l.published part).pieces.map Piece.token) = _ :=
      congrArg Role.ofItem tokens
    rw [Role.ofItem_bare, turned.shows.found, role] at role'
    rw [Role.type.inj role', Header.bare_bare]
  refine ⟨u', t', part', parsed, imports.trans same, types, turned, ?_, ?_, ?_, body⟩
  · rw [← Header.visibility_bare, header, Header.visibility_bare, isPublic]
  · rw [← name]
    exact (congrArg Header.name header :)
  · rw [← main]
    exact (congrArg Header.declaresMain header :)

/-- A merge takes the type's lines from its file, or what is left of them without visibility. -/
theorem exists_file (turns : Turns u t part l) (writable : ∀ i ∈ u.imports, i.IsWritable)
    (noReturn : ofChar '\r' ∉ u.code) :
    ∃ u' t', parse (SplitFiles.fileText u t) = .ok u' ∧ u'.imports = u.imports ∧ u'.types = [t'] ∧
      t'.name = t.name ∧ t'.header.declaresMain = t.header.declaresMain ∧ t'.isPublic = true ∧
      u'.body false = u.publicBody t ∧ u'.body true = u.hiddenBody t := by
  obtain ⟨u', t', part', parsed, imports, types, turned, isPublic, name, main, body⟩ :=
    turns.exists_parse_file writable noReturn
  have sound := turns.isSound_published
  obtain ⟨hides, fits, more⟩ := turns.demotePieces_eq turned rfl isPublic
  refine ⟨u', t', parsed, imports, types, ?_, ?_, turned.shows.isPublic_iff.2 isPublic, ?_, ?_⟩
  · rw [← name, TypeDecl.name, turned.shows.header]
  · rw [← main, turned.shows.header]
  · rw [body, Header.bodyPieces, if_neg Bool.false_ne_true, turned.pieces]
    have lines := congrArg (trimBlankLines ∘ Text.lines) (sound.text_ended [ofChar '\n'])
    rw [Function.comp_apply, Function.comp_apply, trimBlankLines_append_break,
      sound.isTrimmed.trim_eq, ← turns.publicBody_eq] at lines
    exact lines
  · rw [body, Header.bodyPieces, if_pos rfl, hides]
    have lines := congrArg (trimBlankLines ∘ Text.lines) (text_ended fits more [ofChar '\n'])
    rw [Function.comp_apply, Function.comp_apply, trimBlankLines_append_break,
      ← turns.hiddenBody_eq] at lines
    exact lines

end Leaf.Turns

/-! ## Names, and what is left without visibility -/

theorem Header.lexeme_concealPieces {h : Header} {item : Item} {ps : List Piece} {p : Piece}
    (mem : p ∈ h.concealPieces item ps) : ∃ q ∈ ps, q.lexeme = p.lexeme := by
  induction item generalizing ps with
  | nil =>
    refine ⟨p, ?_, rfl⟩
    cases ps <;> exact mem
  | cons t ts ih =>
    cases ps with
    | nil => cases mem
    | cons q ps =>
      rw [concealPieces] at mem
      split at mem
      · cases ps with
        | nil => cases mem
        | cons r ps =>
          rcases List.mem_cons.1 mem with rfl | mem
          · exact ⟨r, by simp, rfl⟩
          · exact ⟨p, by simp [mem], rfl⟩
      · rcases List.mem_cons.1 mem with rfl | mem
        · exact ⟨p, List.mem_cons_self, rfl⟩
        · obtain ⟨r, inside, same⟩ := ih mem
          exact ⟨r, List.mem_cons_of_mem _ inside, same⟩

namespace Leaf

def tokens (l : Leaf) : List Item :=
  l.items.map (List.map Piece.token)

def names (l : Leaf) : List Text :=
  l.tokens.flatMap (declaredNames.collect none)

/-- Whether the leaf is a declaration of the type with strays behind it, which may be scanned before
any text. -/
structure Declares (t : TypeDecl) (l : Leaf) : Prop where
  fits : ∀ ps ∈ l.items, ∀ s, Fits ps s
  closed : ∀ ps ∈ l.items, Item.IsClosed (ps.map Piece.token)
  solid : ∀ ps ∈ l.items, ∀ p ∈ ps, ofChar '\n' ∉ p.lexeme
  closes : l.Closes
  header : ∃ h, Header.ofItem? (l.pieces.map Piece.token) = some h ∧ h.name = t.name ∧
    h.declaresMain = t.header.declaresMain
  strays : ∀ ps ∈ l.strays, Role.ofItem (ps.map Piece.token) = .stray

theorem Declares.ne_nil {t : TypeDecl} {l : Leaf} (declares : l.Declares t) : l.pieces ≠ [] := by
  intro none
  obtain ⟨h, found, -⟩ := declares.header
  rw [none] at found
  cases found

theorem names_of_head {l l' : Leaf} (strays : l.strays = l'.strays)
    (same : declaredNames.collect none (l.pieces.map Piece.token)
      = declaredNames.collect none (l'.pieces.map Piece.token)) : l.names = l'.names := by
  rw [names, names, tokens, tokens, items, items, List.map_cons, List.map_cons, List.flatMap_cons,
    List.flatMap_cons, same, strays]

namespace Turns

variable {u : CompilationUnit} {t : TypeDecl} {part : Part} {l : Leaf}

theorem names_published (turns : Turns u t part l) : (l.published part).names = l.names := by
  refine names_of_head rfl ?_
  have tokens := turns.shows.tokens
  have same := Header.names_publish (Role.ofItem_eq_type turns.shows.found) turns.read
  rw [published, Header.token_publishPieces tokens, ← turns.pieces, tokens]
  exact (collect_bare none _).trans (same.trans (collect_bare none _).symm)

theorem declares_hidden (turns : Turns u t part l) (writable : ∀ i ∈ u.imports, i.IsWritable)
    (noReturn : ofChar '\r' ∉ u.code) :
    (l.hidden part).Declares t ∧ (l.hidden part).names = l.names := by
  obtain ⟨u', t', part', -, -, -, turned, isPublic, name, main, -⟩ :=
    turns.exists_parse_file writable noReturn
  have found := Role.ofItem_eq_type turned.shows.found
  have sound := turns.isSound_published
  have pieces : part'.pieces = (l.published part).pieces := turned.pieces
  have tokens := turned.shows.tokens
  have detaches : part'.item.Detaches := by
    rw [← Item.detaches_bare, ← tokens, pieces, published,
      Header.token_publishPieces turns.shows.tokens, Item.detaches_bare]
    exact turns.detaches
  obtain ⟨hides, fits, -⟩ := turns.demotePieces_eq turned rfl isPublic
  obtain ⟨h, demoted, name', -, main', closed⟩ :=
    Header.exists_demote found turned.read detaches
  have hidden : (l.hidden part).pieces.map Piece.token
      = (part'.header.demote part'.item).map Token.bare := by
    rw [← hides, Header.demotePieces, Header.demote, if_pos isPublic, if_pos isPublic,
      Header.token_concealPieces tokens]
  obtain ⟨-, closedStrays⟩ := List.forall_mem_cons.1 turns.sound.closed
  obtain ⟨solidType, solidStrays⟩ := List.forall_mem_cons.1 turns.sound.solid
  obtain ⟨plainType, plainStrays⟩ := List.forall_mem_cons.1 turns.closes_published.plain
  refine ⟨⟨fits, List.forall_mem_cons.2 ⟨?_, closedStrays⟩,
    List.forall_mem_cons.2 ⟨fun p mem => ?_, solidStrays⟩,
    ⟨turns.closes.isTail, List.forall_mem_cons.2 ⟨?_, plainStrays⟩, turns.closes.plainGap⟩,
    ⟨h.bare, ?_, name'.trans name, main'.trans main⟩, turns.sound.strays⟩, ?_⟩
  · rw [hidden, Item.isClosed_bare]
    apply closed
    rw [← Item.isClosed_bare, ← tokens, pieces]
    exact sound.closed _ List.mem_cons_self
  · obtain ⟨q, inside, same⟩ := Header.lexeme_concealPieces mem
    rw [← same]
    exact solidType q (turns.pieces ▸ inside)
  · rw [← hides]
    refine (Header.fits_demotePieces found turned.read.nodup tokens detaches (s := []) ?_ ?_).2
    · rw [pieces]
      exact turns.opens []
    · rw [pieces]
      exact plainType
  · rw [hidden, Header.ofItem?_bare, demoted]
    rfl
  · rw [← turns.names_published]
    refine names_of_head rfl ?_
    rw [hidden, ← pieces, tokens]
    have same := (Header.names_demote found turned.read detaches).1
    exact (collect_bare none _).trans (same.trans (collect_bare none _).symm)

end Turns

end Leaf

end JavaUnits
