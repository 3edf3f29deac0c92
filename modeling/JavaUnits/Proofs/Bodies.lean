import JavaUnits.Merge
import JavaUnits.Proofs.Lines
import JavaUnits.Proofs.Visibility

/-!
The text of a whole source without its directives, the headers of all types edited at once. What is
kept between the directives stays in place, so that the types are read one after another.
-/

namespace JavaUnits

open CodePoint Token Scan Span Text CompilationUnit

namespace Block

/-- What a block leaves of the text, when the pieces of types are changed. -/
def turned (change : Header → Item → List Piece → List Piece) (b : Block) : Text :=
  b.kept ++ match b.role with
    | .type h => source (change h b.item b.pieces)
    | .stray => source b.pieces
    | _ => []

theorem edits_stretches {b : Block} (item : List Stretch) (other : b.role.isDirective = false)
    (start : Nat) :
    Stretch.edits start (b.stretches item) = Stretch.edits (start + b.kept.length) item := by
  rw [stretches, Stretch.edits_stays, other]
  rfl

/-- One edit for each type, if any, is a change of all blocks. -/
theorem exists_stretches {code rest : Text} {cuts : List Span} (layout : Layout)
    {edit? : TypeDecl → Option Edit} {change : Header → Item → List Piece → List Piece}
    {bs : List Block} (sound : ∀ b ∈ bs, b.IsSound) (start : Nat)
    (edited : List.Forall₂ (fun t part => Edited t.span.start part.pieces (edit? t).toList
        (source (change part.header part.item part.pieces)))
      (typesOf code cuts ((entries layout start bs).filterMap CompilationUnit.Entry.type?))
      (partsFrom rest bs)) :
    ∃ xs, Stretch.Sound xs ∧ Stretch.before xs = bs.flatMap text ∧
      Stretch.cuts start xs = (entries layout start bs).filterMap CompilationUnit.Entry.cut? ∧
      Stretch.edits start xs
        = (typesOf code cuts
          ((entries layout start bs).filterMap CompilationUnit.Entry.type?)).filterMap edit? ∧
      Stretch.after xs = bs.flatMap (turned change) := by
  induction bs generalizing start with
  | nil => exact ⟨[], by simp [Stretch.Sound], rfl, rfl, rfl, rfl⟩
  | cons b bs ih =>
    rw [List.forall_mem_cons] at sound
    rw [entries, List.filterMap_cons] at edited
    rw [entries, List.filterMap_cons (f := CompilationUnit.Entry.type?)]
    -- The changes of the blocks behind go on where this block's ends.
    have joined {item xs : List Stretch} (amends : Amends item (source b.pieces))
        (isSound : Stretch.Sound xs) (before : Stretch.before xs = bs.flatMap text)
        (cuts : Stretch.cuts (start + b.text.length) xs
          = (entries layout (start + b.text.length) bs).filterMap CompilationUnit.Entry.cut?) :
        Stretch.Sound (b.stretches item ++ xs) ∧
          Stretch.before (b.stretches item ++ xs) = (b :: bs).flatMap text ∧
          Stretch.cuts start (b.stretches item ++ xs)
            = (b.entry layout start
              :: entries layout (start + b.text.length) bs).filterMap
                CompilationUnit.Entry.cut? := by
      refine ⟨sound_append (sound_stretches sound.1 amends) isSound, ?_, ?_⟩
      · rw [Stretch.before_append, before_stretches sound.1 amends, before, List.flatMap_cons]
      · rw [Stretch.cuts_append, cuts_stretches layout start amends,
          before_stretches sound.1 amends, cuts, List.filterMap_cons]
        cases (b.entry layout start).cut? <;> rfl
    by_cases isType : b.role.isType = true
    · obtain ⟨h, role⟩ := Role.exists_of_isType isType
      have entry : (b.entry layout start).type? = some ⟨h, start + b.kept.length,
          h.visibilityToken.map fun t => (Layout.offset? layout t).getD 0,
          (Layout.offset? layout h.anchor).getD 0⟩ := by
        rw [Block.entry, role]
        rfl
      rw [entry, typesOf, partsFrom, role] at edited
      rw [entry, typesOf]
      obtain ⟨⟨item, amends, edits, after⟩, later⟩ := List.forall₂_cons.1 edited
      obtain ⟨xs, isSound, before, cuts, behind, new⟩ := ih sound.2 _ later
      obtain ⟨whole, text, both⟩ := joined amends isSound before cuts
      refine ⟨_, whole, text, both, ?_, ?_⟩
      · rw [Stretch.edits_append, edits_stretches item (by rw [role]; rfl), edits,
          before_stretches sound.1 amends, behind, List.filterMap_cons]
        cases edit? _ <;> rfl
      · rw [Stretch.after_append, after_stretches, role, after, new, List.flatMap_cons, turned,
          role]
        rfl
    · have other : b.role.isType = false := Bool.eq_false_iff.2 isType
      rw [type?_eq_none other, partsFrom_of_isType_false other] at edited
      rw [type?_eq_none other]
      obtain ⟨xs, isSound, before, cuts, behind, new⟩ := ih sound.2 _ edited
      obtain ⟨whole, text, both⟩ := joined b.amends_unchanged isSound before cuts
      refine ⟨_, whole, text, both, ?_, ?_⟩
      · rw [Stretch.edits_append, edits_unchanged, before_stretches sound.1 b.amends_unchanged,
          behind]
        rfl
      · rw [Stretch.after_append, after_stretches, new, List.flatMap_cons, turned]
        cases role : b.role with
        | type h => simp [role, Role.isType] at other
        | stray => simp [Role.isDirective, unchanged, Stretch.after, Stretch.new]
        | package => simp [Role.isDirective]
        | importDecl => simp [Role.isDirective]

end Block

/-- The whole text without directives, with one edit for each type, if any. -/
theorem text_ofBlocks {code rest : Text} {blocks : List Block} {edit? : TypeDecl → Option Edit}
    {change : Header → Item → List Piece → List Piece} (sound : ∀ b ∈ blocks, b.IsSound)
    (whole : code = blocks.flatMap Block.text ++ rest)
    (edited : List.Forall₂ (fun t part => Edited t.span.start part.pieces (edit? t).toList
        (source (change part.header part.item part.pieces)))
      (ofBlocks code blocks).types (partsFrom rest blocks)) :
    (ofBlocks code blocks).text ⟨0, code.length⟩ ((ofBlocks code blocks).types.filterMap edit?)
      = blocks.flatMap (Block.turned change) ++ rest := by
  obtain ⟨xs, isSound, before, cuts, edits, after⟩ :=
    Block.exists_stretches (.ofText code) sound 0 edited
  have all : Stretch.before (xs ++ [.stays rest]) = code := by
    rw [Stretch.before_append, before, whole]
    simp [Stretch.before, Stretch.old]
  have rendered := render_stretches [] (xs ++ [.stays rest]) [] (by
    rw [List.append_nil, List.nil_append]
    exact Block.sound_append isSound (by simp [Stretch.Sound, Stretch.changes]))
  simp only [List.nil_append, List.append_nil, Stretch.before_nil, List.length_nil, all,
    Nat.zero_add, Stretch.cuts_append, Stretch.edits_append, cuts, edits, Stretch.after_append,
    after] at rendered
  simp only [Stretch.cuts, Stretch.edits, List.append_nil, Stretch.after, Stretch.new,
    List.flatMap_cons, List.flatMap_nil] at rendered
  exact rendered

/-! ## Headers without `public` -/

/-- The pieces with more of a gap before them. -/
def Piece.precede (gap : Text) : List Piece → List Piece
  | [] => []
  | p :: ps => { p with gap := gap ++ p.gap } :: ps

section

variable {ps : List Piece} {s : Text}

theorem precede_eq_regap (gap : Text) (ps : List Piece) :
    Piece.precede gap ps = regap (gap ++ leadingGap ps) ps := by
  cases ps <;> rfl

theorem token_precede (gap : Text) (ps : List Piece) :
    (Piece.precede gap ps).map Piece.token = ps.map Piece.token := by
  cases ps <;> rfl

theorem source_precede (gap : Text) (more : ps ≠ []) :
    source (Piece.precede gap ps) = gap ++ source ps := by
  cases ps with
  | nil => exact absurd rfl more
  | cons p ps => simp [Piece.precede, source_cons]

theorem isPlain_precede {gap : Text} (first : (gap ++ leadingGap ps).IsPlain)
    (rest : ∀ p ∈ regap [] ps, p.IsPlain) : ∀ p ∈ Piece.precede gap ps, p.IsPlain := by
  cases ps with
  | nil => simp [Piece.precede]
  | cons p ps =>
    rw [regap, List.forall_mem_cons] at rest
    exact List.forall_mem_cons.2 ⟨⟨first, rest.1.2⟩, rest.2⟩

end

namespace Header

variable {h : Header} {item : Item} {ps : List Piece} {s : Text}

theorem concealPieces_precede (h : Header) (gap : Text) (item : Item) (ps : List Piece) :
    h.concealPieces item (Piece.precede gap ps) = Piece.precede gap (h.concealPieces item ps) := by
  cases item with
  | nil => rfl
  | cons t ts =>
    cases ps with
    | nil => rfl
    | cons p ps =>
      rw [Piece.precede, concealPieces, concealPieces]
      split
      · cases ps <;> simp [Piece.closeUp, Piece.movedUp, Piece.precede]
      · rfl

theorem words_of_fits (fits : Fits ps s) (tokens : ps.map Piece.token = item.map Token.bare) :
    ∀ t ∈ item, t.isModifier = true → t.value ∈ Token.modifiers := by
  intro t mem isModifier
  obtain ⟨p, inside, bare⟩ : ∃ p ∈ ps, p.token = t.bare := by
    have mem := List.mem_map_of_mem (f := Token.bare) mem
    rw [← tokens] at mem
    exact List.mem_map.1 mem
  obtain ⟨front, back, rfl⟩ := List.append_of_mem inside
  obtain ⟨-, -, lex, -⟩ := fits_append.1 fits
  have kind : p.kind = .modifier := by
    rw [show p.kind = t.kind from congrArg Token.kind bare]
    exact of_decide_eq_true isModifier
  obtain ⟨word, -⟩ := lex.name (by rw [kind]; rfl)
  rw [show t.value = p.lexeme from (congrArg Token.value bare).symm]
  exact kindOfWord_modifier (word.symm.trans kind)

section

variable {front mid rest : List Token} {name : Token} {visible : Option Token}

theorem Apart.exists_pieces {v : Token} (apart : h.Apart item front visible mid name rest)
    (shown : visible = some v) (nodup : item.Nodup)
    (tokens : ps.map Piece.token = item.map Token.bare) :
    ∃ fs p q qs, ps = fs ++ p :: q :: qs ∧ fs.map Piece.token = front.map Token.bare ∧
      p.token = v.bare ∧ h.concealPieces item ps = fs ++ q.movedUp p.gap :: qs := by
  subst shown
  have whole := apart.item_eq
  rw [Option.toList_some, List.singleton_append] at whole
  have none : v ∉ front := by
    rw [whole] at nodup
    exact fun inside => (List.nodup_append.1 nodup).2.2 v inside v (by simp) rfl
  rw [whole, List.map_append, List.map_cons] at tokens
  obtain ⟨fs, later, rfl, sameFront, sameLater⟩ := List.map_eq_append_iff.1 tokens
  obtain ⟨p, qs, rfl, sameToken, sameBack⟩ := List.map_eq_cons_iff.1 sameLater
  have length : fs.length = front.length := by simpa using congrArg List.length sameFront
  cases qs with
  | nil => simp at sameBack
  | cons q qs =>
    refine ⟨fs, p, q, qs, rfl, sameFront, sameToken, ?_⟩
    rw [whole]
    exact concealPieces_of_some apart.shown none length _ p q qs

/-- Nothing runs together when `public` is taken out. -/
theorem Apart.fits_remove {v : Token} {fs qs : List Piece} {p q : Piece}
    (apart : h.Apart item front visible mid name rest) (shown : visible = some v)
    (leaves : ∀ t ∈ front.getLast?, t.leavesOff = true)
    (sameFront : fs.map Piece.token = front.map Token.bare) (sameToken : p.token = v.bare)
    (fits : Fits (fs ++ p :: q :: qs) s) : Fits (fs ++ q.movedUp p.gap :: qs) s := by
  obtain ⟨fitsFront, -, lex, gap, -⟩ := fits_append.1 fits
  have word : p.kind.isWord = true := by
    rw [show p.kind = v.kind from congrArg Token.kind sameToken, (apart.shows v shown).1.kind]
    rfl
  apply fits.remove
  · rw [← List.takeWhile_append_dropWhile (p := isSpaceOrTab) (l := q.gap)] at gap
    exact gap.of_append_blank fun c mem => isBlank_of_isSpaceOrTab (List.mem_takeWhile_imp mem)
  · by_cases noGap : p.gap = []
    · right
      intro r last
      obtain ⟨init, rfl⟩ := List.getLast?_eq_some_iff.1 last
      obtain ⟨-, -, lexLast, -⟩ := fits_append.1 fitsFront
      -- A word ends where no word goes on, but the visibility is a word itself.
      have noWord : r.kind.isWord = false := by
        rw [Bool.eq_false_iff]
        intro isWord
        obtain ⟨-, -, stop⟩ := lexLast.name isWord
        obtain ⟨-, isName, -⟩ := lex.name word
        obtain ⟨c, u, lexeme, -⟩ := isName.head
        have goes := isName.continues c (by simp [lexeme])
        simp [source_cons, noGap, lexeme, continuesIn, goes] at stop
      obtain ⟨t, lastToken, bare⟩ : ∃ t, front.getLast? = some t ∧ t.bare = r.token := by
        have same := congrArg List.getLast? sameFront
        rw [List.map_append, List.map_singleton, List.getLast?_concat, List.getLast?_map] at same
        exact Option.map_eq_some_iff.1 same.symm
      have leaves := leaves t lastToken
      have sameKind : t.kind = r.kind := congrArg Token.kind bare
      have sameValue : t.value = r.lexeme := congrArg Token.value bare
      rw [Token.leavesOff, sameKind, sameValue, noWord, Bool.false_and, Bool.false_or] at leaves
      exact leaves
    · exact .inl noGap

end

theorem fits_demotePieces (found : ofItem? item = some h) (nodup : item.Nodup)
    (tokens : ps.map Piece.token = item.map Token.bare) (detaches : item.Detaches)
    (fits : Fits ps s) (plain : ∀ p ∈ ps, p.IsPlain) :
    Fits (h.demotePieces item ps) s ∧ ∀ p ∈ h.demotePieces item ps, p.IsPlain := by
  rw [demotePieces]
  split
  case isFalse => exact ⟨fits, plain⟩
  rename_i isPublic
  obtain ⟨front, visible, mid, name, rest, apart⟩ :=
    exists_apart found (words_of_fits fits tokens)
  cases shown : visible with
  | none =>
    rw [concealPieces_of_none (apart.shown.trans shown)]
    exact ⟨fits, plain⟩
  | some v =>
    obtain ⟨fs, p, q, qs, rfl, sameFront, sameToken, same⟩ :=
      apart.exists_pieces shown nodup tokens
    rw [same]
    refine ⟨apart.fits_remove shown (apart.leavesOff detaches isPublic) sameFront sameToken
      fits, ?_⟩
    simp only [List.forall_mem_append, List.forall_mem_cons] at plain ⊢
    obtain ⟨plainFront, ⟨plainGap, -⟩, ⟨plainBehind, plainLexeme⟩, plainBack⟩ := plain
    refine ⟨plainFront, ⟨(isPlain_append (fits_append.1 fits).2.1.last).2 ⟨plainGap, ?_⟩,
      plainLexeme⟩, plainBack⟩
    rw [← List.takeWhile_append_dropWhile (p := isSpaceOrTab) (l := q.gap)] at plainBehind
    exact isPlain_of_append_blank plainBehind fun c mem =>
      isBlank_of_isSpaceOrTab (List.mem_takeWhile_imp mem)

theorem demotePieces_ne_nil (found : ofItem? item = some h) (nodup : item.Nodup)
    (tokens : ps.map Piece.token = item.map Token.bare) (fits : Fits ps s) :
    h.demotePieces item ps ≠ [] := by
  have more : ps ≠ [] := by
    rintro rfl
    rw [List.map_nil] at tokens
    rw [List.map_eq_nil_iff.1 tokens.symm] at found
    simp [ofItem?] at found
  rw [demotePieces]
  split
  · obtain ⟨front, visible, mid, name, rest, apart⟩ :=
      exists_apart found (words_of_fits fits tokens)
    cases shown : visible with
    | none => rwa [concealPieces_of_none (apart.shown.trans shown)]
    | some v =>
      obtain ⟨fs, p, q, qs, rfl, -, -, same⟩ := apart.exists_pieces shown nodup tokens
      rw [same]
      simp
  · exact more

/-! ## What the text is read as -/

/-- The pieces of a type in a body, which may be demoted. -/
def bodyPieces (demoted : Bool) (h : Header) (item : Item) (ps : List Piece) : List Piece :=
  if demoted then h.demotePieces item ps else ps

def bodyItem (demoted : Bool) (h : Header) (item : Item) : Item :=
  if demoted then h.demote item else item

end Header

def Item.left (demoted : Bool) (item : Item) : List Token :=
  match Role.ofItem item with
  | .type h => h.bodyItem demoted item
  | .stray => item
  | _ => []

namespace Block

variable {rest : Text} {bs : List Block} {b : Block} {demoted : Bool}

/-- What an item leaves in a body, with more before it. -/
def bodyPieces (demoted : Bool) (b : Block) (ps : List Piece) : List Piece :=
  match b.role with
  | .type h => h.bodyPieces demoted b.item ps
  | _ => ps

theorem turned_eq (other : b.role.isDirective = false) :
    b.turned (Header.bodyPieces demoted) = b.kept ++ source (b.bodyPieces demoted b.pieces) := by
  rw [turned, bodyPieces]
  cases role : b.role <;> simp_all [Role.isDirective]

theorem turned_directive (directive : b.role.isDirective = true)
    (change : Header → Item → List Piece → List Piece) : b.turned change = b.kept := by
  rw [turned]
  cases role : b.role <;> simp_all [Role.isDirective]

theorem left_directive (sound : b.IsSound) (directive : b.role.isDirective = true) :
    b.item.left demoted = [] := by
  rw [Item.left, ← sound.role]
  cases role : b.role <;> simp_all [Role.isDirective]

theorem bodyPieces_precede (demoted : Bool) (b : Block) (gap : Text) (ps : List Piece) :
    b.bodyPieces demoted (Piece.precede gap ps)
      = Piece.precede gap (b.bodyPieces demoted ps) := by
  rw [bodyPieces, bodyPieces]
  split
  · rw [Header.bodyPieces, Header.bodyPieces]
    split
    · rw [Header.demotePieces, Header.demotePieces]
      split
      · exact Header.concealPieces_precede _ _ _ _
      · rfl
    · rfl
  · rfl

theorem token_bodyPieces (sound : b.IsSound) (other : b.role.isDirective = false)
    {ps : List Piece} (tokens : ps.map Piece.token = b.item.map Token.bare) :
    (b.bodyPieces demoted ps).map Piece.token = (b.item.left demoted).map Token.bare := by
  rw [Item.left, ← sound.role, bodyPieces]
  cases role : b.role with
  | type h =>
    simp only [Header.bodyPieces, Header.bodyItem]
    split
    · rw [Header.demotePieces, Header.demote]
      split
      · exact Header.token_concealPieces tokens
      · exact tokens
    · exact tokens
  | stray => exact tokens
  | package => simp [role, Role.isDirective] at other
  | importDecl => simp [role, Role.isDirective] at other

theorem fits_bodyPieces (sound : b.IsSound) (nodup : b.item.Nodup)
    (detaches : demoted = true → b.item.Detaches) {ps : List Piece} {s : Text}
    (tokens : ps.map Piece.token = b.item.map Token.bare)
    (fits : Fits ps s) (plain : ∀ p ∈ ps, p.IsPlain) :
    Fits (b.bodyPieces demoted ps) s ∧ ∀ p ∈ b.bodyPieces demoted ps, p.IsPlain := by
  rw [bodyPieces]
  split
  · rename_i h role
    rw [Header.bodyPieces]
    split
    · rename_i isDemoted
      exact Header.fits_demotePieces (Role.ofItem_eq_type (sound.role ▸ role)) nodup tokens
        (detaches isDemoted) fits plain
    · exact ⟨fits, plain⟩
  · exact ⟨fits, plain⟩

theorem bodyPieces_ne_nil (sound : b.IsSound) (nodup : b.item.Nodup) {ps : List Piece} {s : Text}
    (tokens : ps.map Piece.token = b.item.map Token.bare) (fits : Fits ps s) :
    b.bodyPieces demoted ps ≠ [] := by
  have more : ps ≠ [] := by
    rintro rfl
    rw [List.map_nil, ← sound.tokens] at tokens
    have none := sound.source
    rw [List.map_eq_nil_iff.1 tokens.symm] at none
    exact none rfl
  rw [bodyPieces]
  split
  · rename_i h role
    rw [Header.bodyPieces]
    split
    · exact Header.demotePieces_ne_nil (Role.ofItem_eq_type (sound.role ▸ role)) nodup tokens fits
    · exact more
  · exact more

/-- A block is read as what its item leaves, unless it is not the last and its item runs on. -/
theorem Stands.reads_turned (stands : b.Stands rest bs) (other : b.role.isDirective = false)
    (nodup : b.item.Nodup) (detaches : demoted = true → b.item.Detaches) {s : Text}
    {ts : List Token} (later : Reads s ts) (last : bs = [] → s = rest ∧ ts = []) :
    Reads (b.turned (Header.bodyPieces demoted) ++ s)
      ((b.item.left demoted).map Token.bare ++ ts) := by
  have tokens : (Piece.precede b.kept b.pieces).map Piece.token = b.item.map Token.bare := by
    rw [token_precede, stands.sound.tokens]
  have plain := isPlain_precede stands.plain.1 stands.plain.2
  have precedes {t : Text} (fits : Fits (regap [] b.pieces) t) :
      Fits (Piece.precede b.kept b.pieces) t := by
    rw [precede_eq_regap]
    have regapped := fits_regap fits stands.whole
    cases cons : b.pieces with
    | nil => trivial
    | cons p ps =>
      rw [cons] at regapped
      exact regapped
  have fits {t : Text} (fits : Fits (regap [] b.pieces) t) :=
    fits_bodyPieces stands.sound nodup detaches tokens (precedes fits) plain
  have more {t : Text} (fits : Fits (regap [] b.pieces) t) :
      b.bodyPieces demoted b.pieces ≠ [] := by
    have more : b.bodyPieces demoted (Piece.precede b.kept b.pieces) ≠ [] :=
      bodyPieces_ne_nil stands.sound nodup tokens (precedes fits)
    rw [bodyPieces_precede] at more
    intro none
    rw [none] at more
    exact more rfl
  rw [turned_eq other, ← token_bodyPieces stands.sound other tokens]
  rcases stands.fits other with all | ⟨none, ending⟩
  · rw [← source_precede _ (more (all [])), ← bodyPieces_precede]
    exact (opens_source (fun t => (fits (all t)).1) (fits (all [])).2).append_reads later
  · obtain ⟨rfl, rfl⟩ := last none
    rw [← source_precede _ (more ending), ← bodyPieces_precede, List.append_nil]
    exact reads_source (fits ending).1 (fits ending).2 later

theorem reads_turned (stands : ∀ xs b ys, bs = xs ++ b :: ys → b.Stands rest ys)
    (nodup : ∀ b ∈ bs, b.item.Nodup) (detaches : demoted = true → ∀ b ∈ bs, b.item.Detaches)
    (ending : Reads rest []) :
    Reads (bs.flatMap (turned (Header.bodyPieces demoted)) ++ rest)
      ((bs.map item).flatMap fun item => (item.left demoted).map Token.bare) := by
  induction bs with
  | nil => exact ending
  | cons b bs ih =>
    have here := stands [] b bs rfl
    have later := ih (fun xs c ys split => stands (b :: xs) c ys (by rw [split]; rfl))
      (fun c mem => nodup c (List.mem_cons_of_mem b mem))
      fun isDemoted c mem => detaches isDemoted c (List.mem_cons_of_mem b mem)
    rw [List.flatMap_cons, List.map_cons, List.flatMap_cons, List.append_assoc]
    by_cases directive : b.role.isDirective = true
    · have other : b.role.isType = false := by
        cases role : b.role <;> simp_all [Role.isType, Role.isDirective]
      rw [turned_directive directive, left_directive here.sound directive]
      exact (here.opens_kept (here.kept other)).append_reads later
    · refine here.reads_turned (Bool.eq_false_iff.2 directive) (nodup b List.mem_cons_self)
        (fun isDemoted => detaches isDemoted b List.mem_cons_self) later ?_
      rintro rfl
      exact ⟨rfl, rfl⟩

end Block

end JavaUnits
