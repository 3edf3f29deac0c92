import JavaUnits.Proofs.Sources
import JavaUnits.Proofs.Written

/-!
Texts put together from passages: items one after another, each with the text behind it. Where every
type begins its line, a type's part of such a text is its passage, and no more.
-/

namespace JavaUnits

open CodePoint Token Scan Text CompilationUnit

/-! ## Items one after another -/

/-- An item with the text behind it. -/
structure Passage where
  pieces : List Piece
  behind : Text

namespace Passage

def text (x : Passage) : Text :=
  source x.pieces ++ x.behind

/-- The items that passages make when `gap` stands before them. -/
def chain (gap : Text) : List Passage → List (List Piece)
  | [] => []
  | x :: xs => Piece.precede gap x.pieces :: chain x.behind xs

def last (gap : Text) : List Passage → Text
  | [] => gap
  | x :: xs => last x.behind xs

variable {gap : Text} {xs ys : List Passage}

theorem chain_append (gap : Text) (xs ys : List Passage) :
    chain gap (xs ++ ys) = chain gap xs ++ chain (last gap xs) ys := by
  induction xs generalizing gap with
  | nil => rfl
  | cons x xs ih => rw [List.cons_append, chain, ih, chain, last, List.cons_append]

theorem last_append (gap : Text) (xs ys : List Passage) :
    last gap (xs ++ ys) = last (last gap xs) ys := by
  induction xs generalizing gap with
  | nil => rfl
  | cons x xs ih => rw [List.cons_append, last, ih, last]

theorem source_chain (gap : Text) (more : ∀ x ∈ xs, x.pieces ≠ []) :
    source (chain gap xs).flatten ++ last gap xs = gap ++ xs.flatMap text := by
  induction xs generalizing gap with
  | nil => simp [chain, last]
  | cons x xs ih =>
    rw [List.forall_mem_cons] at more
    rw [chain, last, List.flatten_cons, source_append, List.append_assoc, ih x.behind more.2,
      source_precede gap more.1, List.flatMap_cons, text]
    simp only [List.append_assoc]

theorem token_chain (gap : Text) (xs : List Passage) :
    (chain gap xs).map (List.map Piece.token) = xs.map fun x => x.pieces.map Piece.token := by
  induction xs generalizing gap with
  | nil => rfl
  | cons x xs ih => rw [chain, List.map_cons, List.map_cons, ih, token_precede]

theorem lexeme_precede {ps : List Piece} {p : Piece} (mem : p ∈ Piece.precede gap ps) :
    ∃ q ∈ ps, q.lexeme = p.lexeme := by
  cases ps with
  | nil => cases mem
  | cons q ps =>
    rcases List.mem_cons.1 mem with rfl | mem
    · exact ⟨q, List.mem_cons_self, rfl⟩
    · exact ⟨p, List.mem_cons_of_mem _ mem, rfl⟩

theorem exists_lexeme_precede {ps : List Piece} {p : Piece} (mem : p ∈ ps) (gap : Text) :
    ∃ q ∈ Piece.precede gap ps, q.lexeme = p.lexeme := by
  cases ps with
  | nil => cases mem
  | cons q ps =>
    rcases List.mem_cons.1 mem with rfl | mem
    · exact ⟨_, List.mem_cons_self, rfl⟩
    · exact ⟨p, List.mem_cons_of_mem _ mem, rfl⟩

theorem lexeme_chain {p : Piece} (mem : p ∈ (chain gap xs).flatten) :
    ∃ x ∈ xs, ∃ q ∈ x.pieces, q.lexeme = p.lexeme := by
  induction xs generalizing gap with
  | nil => cases mem
  | cons x xs ih =>
    rw [chain, List.flatten_cons] at mem
    rcases List.mem_append.1 mem with mem | mem
    · obtain ⟨q, inside, same⟩ := lexeme_precede mem
      exact ⟨x, List.mem_cons_self, q, inside, same⟩
    · obtain ⟨x, isLater, rest⟩ := ih mem
      exact ⟨x, List.mem_cons_of_mem _ isLater, rest⟩

/-- Whether the passage is a complete item that may be scanned before any text, with a gap behind
it. -/
structure IsSound (x : Passage) : Prop where
  fits : ∀ s, Fits x.pieces s
  closed : Item.IsClosed (x.pieces.map Piece.token)
  behind : IsGap x.behind
  solid : ∀ p ∈ x.pieces, ofChar '\n' ∉ p.lexeme

theorem IsSound.ne_nil {x : Passage} (sound : x.IsSound) : x.pieces ≠ [] := by
  intro none
  have := sound.closed.ne_nil
  simp [none] at this

theorem fits_chain (isGap : IsGap gap) (sound : ∀ x ∈ xs, x.IsSound) :
    Fits (chain gap xs).flatten (last gap xs) ∧ IsGap (last gap xs) := by
  induction xs generalizing gap with
  | nil => exact ⟨trivial, isGap⟩
  | cons x xs ih =>
    rw [List.forall_mem_cons] at sound
    obtain ⟨later, isGap'⟩ := ih sound.1.behind sound.2
    refine ⟨?_, isGap'⟩
    rw [chain, List.flatten_cons, fits_append, precede_eq_regap]
    refine ⟨fits_regap (sound.1.fits _) (isGap.append ?_), later⟩
    obtain ⟨p, ps, pieces⟩ := List.exists_cons_of_ne_nil sound.1.ne_nil
    have fits := sound.1.fits []
    rw [pieces] at fits ⊢
    exact fits.1

theorem scanned_chain (isGap : IsGap gap) (sound : ∀ x ∈ xs, x.IsSound)
    (plain : (gap ++ xs.flatMap text).IsPlain) :
    Scanned (gap ++ xs.flatMap text) (chain gap xs) (last gap xs) ∧
      Placed (gap ++ xs.flatMap text) (chain gap xs).flatten := by
  obtain ⟨fits, isGap'⟩ := fits_chain isGap sound
  have whole := source_chain gap fun x mem => (sound x mem).ne_nil
  rw [← whole] at plain ⊢
  refine ⟨scanned_of_closed plain fits isGap'.tail fun ps mem => ?_, placed_of_noBreak ?_ _⟩
  · have mem := List.mem_map_of_mem (f := List.map Piece.token) mem
    rw [token_chain] at mem
    obtain ⟨x, inside, same⟩ := List.mem_map.1 mem
    exact same ▸ (sound x inside).closed
  · intro p mem
    obtain ⟨x, inside, q, isPiece, same⟩ := lexeme_chain mem
    exact same ▸ (sound x inside).solid q isPiece

end Passage

/-! ## Passages that begin lines -/

structure Text.EndsLine (s : Text) : Prop where
  ends : s.lastLine = []
  line : ofChar '\n' ∈ s

/-- Whether an item behind the gap begins its line. -/
structure Preceding.Breaks (pre : Preceding) (gap : Text) : Prop where
  ends : gap.lastLine = []
  fresh : pre = .nothing ∨ ofChar '\n' ∈ gap

/-- What is left of a gap whose front is cut out with the directive before it. -/
def Preceding.left (pre : Preceding) (gap : Text) : Text :=
  gap.drop (pre.taken gap).length

/-- What is left of the text behind a directive, which takes the blanks there and then the end of
the line. -/
def Text.behindDirective (s : Text) : Text :=
  match s.dropWhile isSpaceOrTab with
  | c :: t => if c = ofChar '\n' then t else c :: t
  | [] => []

section

variable {pre : Preceding} {role : Role} {gap indent : Text}

theorem Preceding.left_directive (reaches : Bool) (gap : Text) :
    (Preceding.directive true reaches).left gap = gap.behindDirective := by
  have whole := List.takeWhile_append_dropWhile (p := isSpaceOrTab) (l := gap)
  have rest : gap.drop (gap.takeWhile isSpaceOrTab).length = gap.dropWhile isSpaceOrTab := by
    conv => lhs; arg 2; rw [← whole]
    exact List.drop_left
  rw [Preceding.left, taken, behindDirective]
  cases later : gap.dropWhile isSpaceOrTab with
  | nil => simp [later, rest]
  | cons c s =>
    by_cases is : c = ofChar '\n'
    · subst is
      simp [← List.drop_drop, rest, later]
    · simp [rest, later, is]

/-- What goes with an item that begins its line is the line. -/
theorem Preceding.Breaks.own_eq (breaks : pre.Breaks gap) (within : ofChar '\n' ∉ indent)
    (blank : ∀ c ∈ indent, c.isBlank = true) (item : role ≠ .stray) :
    pre.own role (gap ++ indent) = indent ∧ pre.isAlone (gap ++ indent) = true := by
  have fresh : pre.isFresh (gap ++ indent) = true := by
    rw [Preceding.isFresh, Bool.or_eq_true, decide_eq_true_eq, List.contains_iff_mem]
    exact breaks.fresh.imp id fun mem => List.mem_append_left _ mem
  have last : lastLine (gap ++ indent) = indent := by
    rw [lastLine_append, if_neg within, breaks.ends, List.nil_append]
  have alone : pre.isAlone (gap ++ indent) = true := by
    rw [Preceding.isAlone, fresh, last, Bool.true_and]
    exact List.all_eq_true.2 blank
  refine ⟨?_, alone⟩
  cases role with
  | type => rw [Preceding.own, if_pos fresh, last]
  | stray => exact absurd rfl item
  | package => rw [Preceding.own, if_pos alone, last]; all_goals simp
  | importDecl => rw [Preceding.own, if_pos alone, last]; all_goals simp

theorem Preceding.Breaks.taken_append (breaks : pre.Breaks gap) (s : Text) :
    pre.taken (gap ++ s) = pre.taken gap := by
  cases pre with
  | nothing => rfl
  | item => rfl
  | directive owns reaches =>
    have mem := breaks.fresh.resolve_left Preceding.noConfusion
    have whole := List.takeWhile_append_dropWhile (p := isSpaceOrTab) (l := gap)
    cases later : gap.dropWhile isSpaceOrTab with
    | nil =>
      rw [later, List.append_nil] at whole
      rw [← whole] at mem
      exact absurd mem (break_notMem_blanks gap)
    | cons c t =>
      have shorter : (gap.takeWhile isSpaceOrTab).length ≠ gap.length := by
        conv => rhs; rw [← whole, later]
        simp
      rw [Preceding.taken, Preceding.taken, List.takeWhile_append, if_neg shorter,
        List.dropWhile_append, later]
      rfl

theorem Preceding.Breaks.kept_eq (breaks : pre.Breaks gap)
    (own : pre.own role (gap ++ indent) = indent) :
    pre.kept role (gap ++ indent) = pre.left gap := by
  have split := gap_split pre role (gap ++ indent)
  rw [breaks.taken_append, own, ← List.append_assoc] at split
  have front := List.append_cancel_right split
  rw [left]
  conv => rhs; arg 2; rw [← front]
  exact List.drop_left.symm

end

namespace Passage

def item (x : Passage) : Item :=
  x.pieces.map Piece.token

def isDirective (x : Passage) : Bool :=
  (Role.ofItem x.item).isDirective

/-- Whether the item is a directive or a type, and begins on the line on which its text begins. -/
structure IsLine (x : Passage) : Prop where
  within : ofChar '\n' ∉ leadingGap x.pieces
  indent : ∀ c ∈ leadingGap x.pieces, c.isBlank = true
  role : x.isDirective = true ∨ ∃ h, Role.ofItem x.item = .type h

/-- What is left of the passages before the next type. -/
def left : List Passage → Text
  | [] => []
  | x :: xs => if x.isDirective then x.behind.behindDirective ++ left xs else []

/-- The types, each with all that is left behind it. -/
def types : List Passage → List Passage
  | [] => []
  | x :: xs => if x.isDirective then types xs else ⟨x.pieces, x.behind ++ left xs⟩ :: types xs

theorem types_append {xs : List Passage} (directives : ∀ x ∈ xs, x.isDirective = true)
    (ys : List Passage) : types (xs ++ ys) = types ys := by
  induction xs with
  | nil => rfl
  | cons x xs ih =>
    rw [List.forall_mem_cons] at directives
    rw [List.cons_append, types, if_pos directives.1, ih directives.2]

theorem types_eq_self {xs : List Passage} (others : ∀ x ∈ xs, x.isDirective = false) :
    types xs = xs := by
  induction xs with
  | nil => rfl
  | cons x xs ih =>
    rw [List.forall_mem_cons] at others
    have none : left xs = [] := by
      cases xs with
      | nil => rfl
      | cons y ys => rw [left, others.2 y List.mem_cons_self, if_neg (by simp)]
    rw [types, others.1, if_neg (by simp), ih others.2, none, List.append_nil]

theorem IsLine.ne_nil {x : Passage} (isLine : x.IsLine) : x.pieces ≠ [] := by
  intro none
  have role := isLine.role
  rw [isDirective, item, none] at role
  rcases role with directive | ⟨h, type⟩
  · cases directive
  · cases type

theorem role_precede (x : Passage) (p : Position) (gap : Text) :
    (Role.ofItem (tokensFrom p (Piece.precede gap x.pieces))).bare = Role.ofItem x.item := by
  rw [← Role.ofItem_bare, bare_tokensFrom, token_precede, item]

theorem leadingGap_precede {ps : List Piece} (gap : Text) (more : ps ≠ []) :
    leadingGap (Piece.precede gap ps) = gap ++ leadingGap ps := by
  cases ps with
  | nil => exact absurd rfl more
  | cons p ps => rfl

theorem regap_precede (gap : Text) (ps : List Piece) :
    regap (leadingGap ps) (Piece.precede gap ps) = ps := by
  cases ps <;> rfl

theorem parts_chain {pre : Preceding} {gap : Text} {xs : List Passage} (lines : ∀ x ∈ xs, x.IsLine)
    (ends : ∀ x ∈ xs.dropLast, x.behind.EndsLine) (breaks : xs ≠ [] → pre.Breaks gap)
    (p : Position) :
    List.Forall₂ (fun part x => part.pieces = x.pieces ∧ part.trailing = x.behind)
        (partsFrom (restFrom pre p (last gap xs) (chain gap xs))
          (blocksFrom pre p (last gap xs) (chain gap xs))) (types xs) ∧
      Block.ownedText (restFrom pre p (last gap xs) (chain gap xs))
        (blocksFrom pre p (last gap xs) (chain gap xs)) = pre.left gap ++ left xs := by
  induction xs generalizing pre gap p with
  | nil =>
    exact ⟨.nil, by simp [chain, last, blocksFrom, restFrom, Block.ownedText, left, Preceding.left]⟩
  | cons x xs ih =>
    rw [List.forall_mem_cons] at lines
    have breaks := breaks (by simp)
    have laterBreaks (pre : Preceding) (more : xs ≠ []) : pre.Breaks x.behind := by
      have ends := ends x (by rw [List.dropLast_cons_of_ne_nil more]; exact List.mem_cons_self)
      exact ⟨ends.ends, .inr ends.line⟩
    have laterEnds : ∀ x ∈ xs.dropLast, x.behind.EndsLine := by
      intro x' mem
      refine ends x' ?_
      rw [List.dropLast_cons_of_ne_nil (by rintro rfl; cases mem)]
      exact List.mem_cons_of_mem _ mem
    have leading := leadingGap_precede gap lines.1.ne_nil
    have bare := role_precede x p gap
    rw [chain, last, blocksFrom, restFrom]
    generalize roleEq : Role.ofItem (tokensFrom p (Piece.precede gap x.pieces)) = role at bare ⊢
    have isItem : role ≠ .stray := by
      rintro rfl
      rcases lines.1.role with directive | ⟨h, type⟩
      · rw [isDirective, ← bare] at directive
        cases directive
      · rw [type] at bare
        cases bare
    obtain ⟨own, alone⟩ := breaks.own_eq lines.1.within lines.1.indent isItem
    have kept := breaks.kept_eq own
    have pieces : regap (pre.own role (leadingGap (Piece.precede gap x.pieces)))
        (Piece.precede gap x.pieces) = x.pieces := by
      rw [leading, own, regap_precede]
    by_cases directive : role.isDirective = true
    · have owns : pre.ownsLine (gap ++ leadingGap x.pieces) = true := by
        simp [Preceding.ownsLine, alone]
      obtain ⟨reaches, after⟩ : ∃ reaches,
          pre.after role (Piece.precede gap x.pieces) = .directive true reaches := by
        rw [Preceding.after, Preceding.next, if_pos directive, leading, owns]
        exact ⟨_, rfl⟩
      have isDirective : x.isDirective = true := by
        rw [isDirective, ← bare]
        cases role <;> first | rfl | cases directive
      have other : role.isType = false := by
        cases role <;> first | rfl | cases directive
      rw [after]
      obtain ⟨parts, owned⟩ := ih lines.2 laterEnds (laterBreaks (.directive true reaches))
        (positionFrom p (Piece.precede gap x.pieces))
      refine ⟨?_, ?_⟩
      · rw [Block.partsFrom_of_isType_false other, types, if_pos isDirective]
        exact parts
      · rw [Block.ownedText]
        simp only [Preceding.block, other, directive]
        rw [owned, leading, kept, left, if_pos isDirective, Preceding.left_directive]
        simp
    · have after : pre.after role (Piece.precede gap x.pieces) = .item :=
        after_item (Bool.eq_false_iff.2 directive) _ _
      obtain ⟨h, rfl⟩ : ∃ h, role = .type h := by
        cases role with
        | type h => exact ⟨h, rfl⟩
        | stray => exact absurd rfl isItem
        | package => exact absurd rfl directive
        | importDecl => exact absurd rfl directive
      have isType : ¬x.isDirective = true := by
        rw [isDirective, ← bare]
        exact Bool.noConfusion
      rw [after]
      obtain ⟨parts, owned⟩ := ih lines.2 laterEnds (laterBreaks .item)
        (positionFrom p (Piece.precede gap x.pieces))
      refine ⟨?_, ?_⟩
      · rw [partsFrom, types, if_neg isType]
        exact .cons ⟨pieces, owned⟩ parts
      · rw [Block.ownedText]
        simp only [Preceding.block, Role.isType, if_true]
        rw [leading, kept, left, if_neg isType, List.append_nil]

end Passage

/-! ## What a text of passages is parsed as -/

/-- Lines of imports, with a blank line behind them if there are any. -/
def importPart (lines : List Text) : Text :=
  lines.flatMap (fun line => line ++ [ofChar '\n']) ++ if lines.isEmpty then [] else [ofChar '\n']

namespace Written

def passage (w : Written) : Passage :=
  ⟨w.pieces, w.trailing⟩

end Written

section

variable {text front : Text} {xs : List Passage} {ws : List (Written × TypeSyntax)}

/-- A text of passages is parsed as these, and each type made public is the declaration made public,
with all that is left behind it. -/
theorem parse_passages (scanned : Scanned text (Passage.chain front xs) (Passage.last front xs))
    (placed : Placed text (Passage.chain front xs).flatten) (noReturn : ofChar '\r' ∉ text)
    (lines : ∀ x ∈ xs, x.IsLine) (begins : front.lastLine = [])
    (ends : ∀ x ∈ xs.dropLast, x.behind.EndsLine)
    (types : Passage.types xs = ws.map fun x => x.1.passage)
    (declares : ∀ x ∈ ws, x.1.Declares x.2) :
    ∃ u, parse text = .ok u ∧ u.imports = xs.filterMap (fun x => Item.import? x.item) ∧
      List.Forall₂ (fun t (x : Written × TypeSyntax) => t.header.bare = x.2.header.bare ∧
        u.text t.span (publicEdit? t).toList = x.1.published.text) u.types ws := by
  refine ⟨_, parse_eq scanned placed (unifyBreaks_of_notMem noReturn), ?_, ?_⟩
  · have outlines := outlines_ofBlocks text (Passage.chain front xs) (Passage.last front xs)
    rw [← outlines_bare, bare_itemsFrom, Passage.token_chain] at outlines
    rw [outlines.imports, List.filterMap_map]
    rfl
  · have parts := scanned.parts placed
    have inked := List.forall₂_iff_zip.2 ⟨parts.length_eq, fun mem => And.intro
      ((List.forall₂_iff_zip.1 parts).2 mem) (scanned.isInk_part (List.of_mem_zip mem).2)⟩
    have same := (Passage.parts_chain lines ends (fun _ => ⟨begins, .inl rfl⟩) .start).1
    rw [types, List.forall₂_map_right_iff] at same
    have both := forall₂_trans inked same
    refine List.forall₂_iff_zip.2 ⟨both.length_eq, fun {t x} mem => ?_⟩
    obtain ⟨part, ⟨shows, ink⟩, pieces, trailing⟩ := (List.forall₂_iff_zip.1 both).2 mem
    have declares := declares x (List.of_mem_zip mem).2
    have pieces : part.pieces = x.1.pieces := pieces
    refine ⟨shows.header ▸ shows.header_bare pieces declares, ?_⟩
    rw [shows.text_eq (shows.edited_public ink), (shows.edited_written ink pieces declares).1,
      trailing, Written.text, Written.trailing_published]
    rfl

theorem split_passages (scanned : Scanned text (Passage.chain front xs) (Passage.last front xs))
    (placed : Placed text (Passage.chain front xs).flatten) (noReturn : ofChar '\r' ∉ text)
    (lines : ∀ x ∈ xs, x.IsLine) (begins : front.lastLine = [])
    (ends : ∀ x ∈ xs.dropLast, x.behind.EndsLine)
    (types : Passage.types xs = ws.map fun x => x.1.passage) (declares : ∀ x ∈ ws, x.1.Declares x.2)
    (distinct : (ws.map fun x => x.2.header.name).Nodup) :
    ∃ result, split text = .ok result ∧
      result.files = ws.map fun x => (x.2.header.name ++ sourceExtension,
        importPart ((xs.filterMap fun x => Item.import? x.item).map Import.text)
          ++ (stripRight x.1.published.text ++ [ofChar '\n'])) := by
  obtain ⟨u, parsed, imported, published⟩ :=
    parse_passages scanned placed noReturn lines begins ends types declares
  have named (t : TypeDecl) (x : Written × TypeSyntax) (same : t.header.bare = x.2.header.bare) :
      t.name = x.2.header.name := by
    have bare : t.header.bare.name = x.2.header.bare.name := by rw [same]
    exact bare
  have names : u.types.map TypeDecl.name = ws.map fun x => x.2.header.name :=
    map_eq_map_of_forall₂ published fun t _ x _ is => named t x is.1
  refine ⟨_, by rw [split, parsed]; rfl, ?_⟩
  rw [SplitFiles.files_ofUnit (names ▸ distinct)]
  refine map_eq_map_of_forall₂ published fun t _ x _ is => ?_
  rw [SplitFiles.fileName, named t x is.1, SplitFiles.fileText_eq, is.2, imported,
    ← List.append_assoc]
  congr 2
  rw [importPart, List.flatMap_map, List.isEmpty_map]

end

/-! ## Imports and types -/

/-- Whether the line is how the import is written that the pieces declare. -/
structure IsImportLine (line : Text) (ps : List Piece) : Prop where
  source : source ps = line
  begins : leadingGap ps = []
  fits : ∀ s, Fits ps s
  solid : ∀ p ∈ ps, ofChar '\n' ∉ p.lexeme
  closed : Item.IsClosed (ps.map Piece.token)
  role : Role.ofItem (ps.map Piece.token) = .importDecl (.ofItem (ps.map Piece.token))
  text : (Import.ofItem (ps.map Piece.token)).text = line

theorem exists_importLine {ps : List Piece} (isImport : Item.IsImport (ps.map Piece.token))
    (lexed : ∀ p ∈ ps, p.token.IsLexed) (solid : ∀ p ∈ ps, ofChar '\n' ∉ p.lexeme) :
    ∃ qs, IsImportLine (Import.ofItem (ps.map Piece.token)).text qs ∧
      qs.map Piece.token = ps.map Piece.token := by
  obtain ⟨qs, source, begins, fits, tokens⟩ := isImport.exists_pieces fun t mem => by
    obtain ⟨p, inside, rfl⟩ := List.mem_map.1 mem
    exact lexed p inside
  have bare : (ps.map Piece.token).map Token.bare = ps.map Piece.token := by
    rw [List.map_map]
    rfl
  rw [bare] at tokens
  rw [← tokens] at isImport
  refine ⟨qs, ⟨source, begins, fits, fun q mem => ?_,
    Item.IsDeclaration.isClosed (.inr (.inl isImport)), isImport.role, by rw [tokens]⟩, tokens⟩
  have mem := List.mem_map_of_mem (f := Piece.token) mem
  rw [tokens] at mem
  obtain ⟨p, inside, token⟩ := List.mem_map.1 mem
  have lexeme : p.lexeme = q.lexeme := congrArg Token.value token
  exact lexeme ▸ solid p inside

def importPassages : List (List Piece) → List Passage
  | [] => []
  | [ps] => [⟨ps, [ofChar '\n', ofChar '\n']⟩]
  | ps :: qs :: imports => ⟨ps, [ofChar '\n']⟩ :: importPassages (qs :: imports)

section

variable {lines : List Text} {imports : List (List Piece)}

theorem text_importPassages (all : List.Forall₂ IsImportLine lines imports) :
    (importPassages imports).flatMap Passage.text = importPart lines := by
  induction all with
  | nil => rfl
  | @cons line ps _ _ isLine later ih =>
    cases later with
    | nil => simp [importPassages, importPart, Passage.text, isLine.source]
    | cons _ _ =>
      rw [importPassages, List.flatMap_cons, ih, Passage.text, isLine.source]
      simp [importPart]

theorem mem_importPassages {x : Passage} (mem : x ∈ importPassages imports) :
    x.pieces ∈ imports ∧ (x.behind = [ofChar '\n'] ∨ x.behind = [ofChar '\n', ofChar '\n']) := by
  fun_induction importPassages imports with
  | case1 => cases mem
  | case2 ps =>
    obtain rfl := List.mem_singleton.1 mem
    exact ⟨List.mem_singleton_self ps, .inr rfl⟩
  | case3 ps qs imports ih =>
    rcases List.mem_cons.1 mem with rfl | mem
    · exact ⟨List.mem_cons_self, .inl rfl⟩
    · exact ⟨List.mem_cons_of_mem _ (ih mem).1, (ih mem).2⟩

theorem pieces_importPassages (imports : List (List Piece)) :
    (importPassages imports).map Passage.pieces = imports := by
  fun_induction importPassages imports with
  | case1 => rfl
  | case2 => rfl
  | case3 ps qs imports ih => rw [List.map_cons, ih]

theorem last_importPassages (gap : Text) (imports : List (List Piece)) :
    Passage.last gap (importPassages imports)
      = if imports.isEmpty then gap else [ofChar '\n', ofChar '\n'] := by
  fun_induction importPassages imports generalizing gap with
  | case1 => rfl
  | case2 => rfl
  | case3 ps qs imports ih => exact ih _

theorem mem_importPart {c : CodePoint} (mem : c ∈ importPart lines) :
    c = ofChar '\n' ∨ ∃ line ∈ lines, c ∈ line := by
  simp only [importPart, List.mem_append, List.mem_flatMap, List.mem_singleton] at mem
  rcases mem with ⟨line, inside, mem | is⟩ | mem
  · exact .inr ⟨line, inside, mem⟩
  · exact .inl is
  · split at mem
    · cases mem
    · exact .inl (List.mem_singleton.1 mem)

theorem isPlain_importPart (plain : ∀ line ∈ lines, line.IsPlain) :
    (importPart lines).IsPlain ∧ (importPart lines).getLast? ≠ some (ofChar '\\') := by
  have front := isPlain_flatMap (f := fun line => line ++ [ofChar '\n']) fun line mem =>
    ⟨(plain line mem).append_break, by rw [List.getLast?_concat]; decide⟩
  rw [importPart]
  split
  · rwa [List.append_nil]
  · exact ⟨front.1.append_break, by rw [List.getLast?_concat]; decide⟩

theorem isSound_importPassages (all : List.Forall₂ IsImportLine lines imports) :
    ∀ x ∈ importPassages imports, x.IsSound := by
  intro x mem
  obtain ⟨inside, behind⟩ := mem_importPassages mem
  obtain ⟨line, -, isLine⟩ := exists_left_of_mem all inside
  refine ⟨isLine.fits, isLine.closed, ?_, isLine.solid⟩
  rcases behind with same | same <;> rw [same]
  · exact .of_blank (by decide)
  · exact .of_blank (by decide)

theorem map_text_importPassages (all : List.Forall₂ IsImportLine lines imports) :
    ((importPassages imports).filterMap fun x => Item.import? x.item).map Import.text = lines := by
  have pieces : (importPassages imports).filterMap (fun x => Item.import? x.item)
      = imports.filterMap fun ps => Item.import? (ps.map Piece.token) := by
    conv => rhs; rw [← pieces_importPassages imports, List.filterMap_map]
    rfl
  rw [pieces]
  clear pieces
  induction all with
  | nil => rfl
  | cons isLine _ ih =>
    have found := congrArg Role.import? isLine.role
    rw [List.filterMap_cons, Item.import?, found]
    exact List.cons_eq_cons.2 ⟨isLine.text, ih⟩

theorem isLine_importPassages (all : List.Forall₂ IsImportLine lines imports) :
    ∀ x ∈ importPassages imports, x.IsLine ∧ x.behind.EndsLine ∧ x.isDirective = true := by
  intro x mem
  obtain ⟨inside, behind⟩ := mem_importPassages mem
  obtain ⟨line, -, isLine⟩ := exists_left_of_mem all inside
  have directive : x.isDirective = true := by
    rw [Passage.isDirective, Passage.item, isLine.role]
    rfl
  refine ⟨⟨?_, ?_, .inl directive⟩, ?_, directive⟩
  · simp [isLine.begins]
  · simp [isLine.begins]
  · rcases behind with same | same <;> rw [same] <;> exact ⟨by decide, by decide⟩

end

theorem stripRight_source {ps : List Piece} {t : Text} (fits : Fits ps t) (more : ps ≠ []) :
    stripRight (source ps ++ t) = source ps ++ stripRight t := by
  obtain ⟨b, whole, blank, last⟩ := stripRight_split (source ps ++ t)
  obtain ⟨u, stripped, behind⟩ := tail_of_append_blanks fits more whole.symm blank
  rw [stripped, behind, stripRight_append blank fun c ends => last c ?_]
  rw [stripped, List.getLast?_append, ends, Option.some_or]

namespace Written

/-- Whether the declaration begins on the line on which its text begins, may be scanned before any
text, and has a gap behind it that ends its line. -/
structure IsPassage (w : Written) (d : TypeSyntax) : Prop where
  declares : w.Declares d
  fits : ∀ s, Fits w.pieces s
  solid : ∀ p ∈ w.pieces, ofChar '\n' ∉ p.lexeme
  within : ofChar '\n' ∉ leadingGap w.pieces
  indent : ∀ c ∈ leadingGap w.pieces, c.isBlank = true
  behind : IsGap w.trailing
  ends : w.trailing.EndsLine

variable {w : Written} {d : TypeSyntax}

theorem IsPassage.isSound (isPassage : w.IsPassage d) : w.passage.IsSound where
  fits := isPassage.fits
  closed := isPassage.declares.tokens ▸ isPassage.declares.sound.isClosed
  behind := isPassage.behind
  solid := isPassage.solid

theorem Declares.role (declares : w.Declares d) : Role.ofItem w.passage.item = .type d.header :=
  (congrArg Role.ofItem declares.tokens).trans declares.sound.role

theorem IsPassage.isLine (isPassage : w.IsPassage d) : w.passage.IsLine where
  within := isPassage.within
  indent := isPassage.indent
  role := .inr ⟨_, isPassage.declares.role⟩

/-- A declaration is a passage when blanks behind it give way to the end of its line. -/
theorem Declares.isPassage {t back breaks : Text} (declares : w.Declares d)
    (fits : ∀ s, Fits w.pieces s)
    (solid : ∀ p ∈ w.pieces, ofChar '\n' ∉ p.lexeme)
    (indent : ∀ c ∈ leadingGap w.pieces, c.isBlank = true)
    (within : ofChar '\n' ∉ leadingGap w.pieces) (isTail : IsTail (t ++ back))
    (blank : ∀ c ∈ back, c.isBlank = true)
    (isBreaks : breaks = [ofChar '\n'] ∨ breaks = [ofChar '\n', ofChar '\n']) :
    (w.behind (t ++ breaks)).IsPassage d := by
  refine ⟨⟨declares.sound, declares.turns⟩, fits, solid, within, indent, ?_, ?_, ?_⟩
  · have first : IsGap (t ++ [ofChar '\n']) := (IsTail.of_append_blanks isTail blank).append_break
    show IsGap (t ++ breaks)
    rcases isBreaks with rfl | rfl
    · exact first
    · have both : t ++ [ofChar '\n', ofChar '\n'] = t ++ [ofChar '\n'] ++ [ofChar '\n'] := by simp
      rw [both]
      exact first.append (.of_blank (by decide))
  · show lastLine (t ++ breaks) = []
    rcases isBreaks with rfl | rfl <;> rw [lastLine_append, if_pos (by decide)] <;> decide
  · rcases isBreaks with rfl | rfl <;> exact List.mem_append_right _ (by decide)

theorem Declares.exists_trimmed (declares : w.Declares d) (fits : ∀ s, Fits w.pieces s)
    (within : ofChar '\n' ∉ leadingGap w.pieces) :
    ∃ t back, w.trailing = t ++ back ∧ (∀ c ∈ back, c.isBlank = true) ∧
      source w.pieces ++ t = ofLines (trimBlankLines (lines w.text)) := by
  obtain ⟨p, ps, pieces⟩ := List.exists_cons_of_ne_nil declares.ne_nil
  obtain ⟨c, u, lexeme, visible⟩ : p.IsInk := (fits []).isInk p (by simp [pieces])
  have ink : inkText w.pieces ++ w.trailing = c :: (u ++ source ps ++ w.trailing) := by
    rw [pieces, inkText, regap, source_cons]
    simp [lexeme]
  obtain ⟨back, whole, blankBack⟩ :=
    trimBlankLines_eq (s := u ++ source ps ++ w.trailing) within visible
  rw [← ink, ← List.append_assoc, ← source_eq_inkText] at whole
  obtain ⟨t, body, trailing⟩ := tail_of_append_blanks (fits w.trailing) declares.ne_nil whole.symm
    blankBack
  exact ⟨t, back, trailing, blankBack, body.symm⟩

end Written

/-- The files of a text of imports and types. -/
theorem split_written {lines : List Text} {imports : List (List Piece)}
    {ws : List (Written × TypeSyntax)} (all : List.Forall₂ IsImportLine lines imports)
    (passages : ∀ x ∈ ws, x.1.IsPassage x.2)
    (plain : (importPart lines ++ ws.flatMap fun x => x.1.text).IsPlain)
    (noReturn : ofChar '\r' ∉ importPart lines ++ ws.flatMap fun x => x.1.text)
    (distinct : (ws.map fun x => x.2.header.name).Nodup) :
    ∃ result, split (importPart lines ++ ws.flatMap fun x => x.1.text) = .ok result ∧
      result.files = ws.map fun x => (x.2.header.name ++ sourceExtension,
        importPart lines ++ (stripRight x.1.published.text ++ [ofChar '\n'])) := by
  let types := ws.map fun x => x.1.passage
  have ofType {x : Passage} (mem : x ∈ types) :
      x.IsSound ∧ x.IsLine ∧ x.behind.EndsLine ∧ x.isDirective = false ∧
        Item.import? x.item = none := by
    obtain ⟨w, inside, rfl⟩ := List.mem_map.1 mem
    have isPassage := passages w inside
    have role := isPassage.declares.role
    exact ⟨isPassage.isSound, isPassage.isLine, isPassage.ends,
      by rw [Passage.isDirective, role]; rfl, by rw [Item.import?, role]; rfl⟩
  have ofImport := isLine_importPassages all
  have text : ([] : Text) ++ (importPassages imports ++ types).flatMap Passage.text
      = importPart lines ++ ws.flatMap fun x => x.1.text := by
    rw [List.nil_append, List.flatMap_append, text_importPassages all, List.flatMap_map]
    rfl
  obtain ⟨scanned, placed⟩ := Passage.scanned_chain .nil
    (List.forall_mem_append.2 ⟨isSound_importPassages all, fun x mem => (ofType mem).1⟩)
      (by rwa [text])
  rw [text] at scanned placed
  obtain ⟨result, ran, files⟩ := split_passages scanned placed noReturn
    (List.forall_mem_append.2 ⟨fun x mem => (ofImport x mem).1, fun x mem => (ofType mem).2.1⟩) rfl
    (fun x mem => (List.forall_mem_append.2 ⟨fun x mem => (ofImport x mem).2.1,
      fun x mem => (ofType mem).2.2.1⟩) x (List.dropLast_subset _ mem))
    (by rw [Passage.types_append fun x mem => (ofImport x mem).2.2,
      Passage.types_eq_self fun x mem => (ofType mem).2.2.2.1])
    (fun x mem => (passages x mem).declares) distinct
  refine ⟨result, ran, files.trans ?_⟩
  have written : ((importPassages imports ++ types).filterMap fun x => Item.import? x.item).map
      Import.text = lines := by
    rw [List.filterMap_append, List.filterMap_eq_nil_iff.2 fun x mem => (ofType mem).2.2.2.2,
      List.append_nil, map_text_importPassages all]
  rw [written]

end JavaUnits
