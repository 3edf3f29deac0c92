import JavaUnits.Proofs.Remains
import Mathlib.Data.List.Nodup

/-!
The edits of a header. One makes a type public, another takes `public` and the blanks behind it out;
either changes one piece of the item, or puts one in.
-/

namespace JavaUnits

open CodePoint Token Scan Span Text CompilationUnit

namespace Header

def publicToken (position : Position) : Token :=
  ⟨.modifier, "public", position⟩

/-- The item with its visibility set to `public`. -/
def publish (h : Header) : Item → Item
  | [] => []
  | t :: ts =>
    if h.visibilityToken = some t then publicToken t.position :: ts
    else if h.visibilityToken = none ∧ h.anchor = t then publicToken t.position :: t :: ts
    else t :: h.publish ts

/-- The item without its visibility. -/
def conceal (h : Header) : Item → Item
  | [] => []
  | t :: ts => if h.visibilityToken = some t then ts else t :: h.conceal ts

end Header

namespace Piece

def asPublic (p : Piece) : Piece :=
  ⟨p.gap, .modifier, "public"⟩

def behindBlank (p : Piece) : Piece :=
  { p with gap := [ofChar ' '] }

def movedUp (gap : Text) (p : Piece) : Piece :=
  { p with gap := gap ++ p.gap.dropWhile isSpaceOrTab }

/-- What stands behind a piece, when that is taken out with the blanks after it. -/
def closeUp (gap : Text) : List Piece → List Piece
  | [] => []
  | q :: qs => q.movedUp gap :: qs

end Piece

namespace Header

def publishPieces (h : Header) : Item → List Piece → List Piece
  | t :: ts, p :: ps =>
    if h.visibilityToken = some t then p.asPublic :: ps
    else if h.visibilityToken = none ∧ h.anchor = t then p.asPublic :: p.behindBlank :: ps
    else p :: h.publishPieces ts ps
  | _, ps => ps

def concealPieces (h : Header) : Item → List Piece → List Piece
  | t :: ts, p :: ps =>
    if h.visibilityToken = some t then Piece.closeUp p.gap ps
    else p :: h.concealPieces ts ps
  | _, ps => ps

section

variable {h : Header} {v : Token} {front back : Item} {ps qs : List Piece} {p : Piece}

theorem publish_of_some (visible : h.visibilityToken = some v) (none : v ∉ front) (back : Item) :
    h.publish (front ++ v :: back) = front ++ publicToken v.position :: back := by
  induction front with
  | nil => simp [publish, visible]
  | cons t front ih =>
    rw [List.mem_cons, not_or] at none
    rw [List.cons_append, publish, visible, if_neg (by simpa using none.1), if_neg (by simp),
      ih none.2, List.cons_append]

theorem publish_of_none (hidden : h.visibilityToken = none) (none : h.anchor ∉ front)
    (back : Item) : h.publish (front ++ h.anchor :: back)
      = front ++ publicToken h.anchor.position :: h.anchor :: back := by
  induction front with
  | nil => simp [publish, hidden]
  | cons t front ih =>
    rw [List.mem_cons, not_or] at none
    rw [List.cons_append, publish, hidden, if_neg (by simp), if_neg (by simp [none.1]),
      ih none.2, List.cons_append]

theorem publishPieces_of_some (visible : h.visibilityToken = some v) (none : v ∉ front)
    (length : ps.length = front.length) (back : Item) (p : Piece) (qs : List Piece) :
    h.publishPieces (front ++ v :: back) (ps ++ p :: qs) = ps ++ p.asPublic :: qs := by
  induction front generalizing ps with
  | nil =>
    obtain rfl := List.length_eq_zero_iff.1 length
    simp [publishPieces, visible]
  | cons t front ih =>
    rw [List.mem_cons, not_or] at none
    obtain ⟨q, ps, rfl⟩ := List.exists_cons_of_length_pos (by rw [length]; simp : 0 < ps.length)
    rw [List.cons_append, List.cons_append, publishPieces, visible,
      if_neg (by simpa using none.1), if_neg (by simp), ih none.2 (by simpa using length),
      List.cons_append]

theorem publishPieces_of_none (hidden : h.visibilityToken = none) (none : h.anchor ∉ front)
    (length : ps.length = front.length) (back : Item) (p : Piece) (qs : List Piece) :
    h.publishPieces (front ++ h.anchor :: back) (ps ++ p :: qs)
      = ps ++ p.asPublic :: p.behindBlank :: qs := by
  induction front generalizing ps with
  | nil =>
    obtain rfl := List.length_eq_zero_iff.1 length
    simp [publishPieces, hidden]
  | cons t front ih =>
    rw [List.mem_cons, not_or] at none
    obtain ⟨q, ps, rfl⟩ := List.exists_cons_of_length_pos (by rw [length]; simp : 0 < ps.length)
    rw [List.cons_append, List.cons_append, publishPieces, hidden, if_neg (by simp),
      if_neg (by simp [none.1]), ih none.2 (by simpa using length), List.cons_append]

theorem conceal_of_some (visible : h.visibilityToken = some v) (none : v ∉ front) (back : Item) :
    h.conceal (front ++ v :: back) = front ++ back := by
  induction front with
  | nil => simp [conceal, visible]
  | cons t front ih =>
    rw [List.mem_cons, not_or] at none
    rw [List.cons_append, conceal, visible, if_neg (by simpa using none.1), ih none.2,
      List.cons_append]

theorem concealPieces_of_some (visible : h.visibilityToken = some v) (none : v ∉ front)
    (length : ps.length = front.length) (back : Item) (p q : Piece) (qs : List Piece) :
    h.concealPieces (front ++ v :: back) (ps ++ p :: q :: qs) = ps ++ q.movedUp p.gap :: qs := by
  induction front generalizing ps with
  | nil =>
    obtain rfl := List.length_eq_zero_iff.1 length
    simp [concealPieces, visible, Piece.closeUp]
  | cons t front ih =>
    rw [List.mem_cons, not_or] at none
    obtain ⟨x, ps, rfl⟩ := List.exists_cons_of_length_pos (by rw [length]; simp : 0 < ps.length)
    rw [List.cons_append, List.cons_append, concealPieces, visible,
      if_neg (by simpa using none.1), ih none.2 (by simpa using length), List.cons_append]

theorem conceal_of_none (hidden : h.visibilityToken = none) (item : Item) :
    h.conceal item = item := by
  induction item with
  | nil => rfl
  | cons t ts ih => simp [conceal, hidden, ih]

theorem concealPieces_of_none (hidden : h.visibilityToken = none) (item : Item) (ps : List Piece) :
    h.concealPieces item ps = ps := by
  induction item generalizing ps with
  | nil => simp [concealPieces]
  | cons t ts ih => cases ps <;> simp [concealPieces, hidden, ih]

end

end Header

namespace Header

variable {h : Header} {item : Item} {ps : List Piece}

theorem token_publishPieces (tokens : ps.map Piece.token = item.map Token.bare) :
    (h.publishPieces item ps).map Piece.token = (h.publish item).map Token.bare := by
  induction item generalizing ps with
  | nil =>
    obtain rfl := List.map_eq_nil_iff.1 tokens
    rfl
  | cons t ts ih =>
    cases ps with
    | nil => simp at tokens
    | cons p ps =>
      rw [List.map_cons, List.map_cons, List.cons.injEq] at tokens
      rw [publishPieces, publish]
      split
      · rw [List.map_cons, List.map_cons, tokens.2]
        rfl
      · split
        · rw [List.map_cons, List.map_cons, tokens.2, List.map_cons, List.map_cons, ← tokens.1]
          rfl
        · rw [List.map_cons, List.map_cons, ih tokens.2, tokens.1]

theorem token_closeUp (gap : Text) (ps : List Piece) :
    (Piece.closeUp gap ps).map Piece.token = ps.map Piece.token := by
  cases ps <;> rfl

theorem token_concealPieces (tokens : ps.map Piece.token = item.map Token.bare) :
    (h.concealPieces item ps).map Piece.token = (h.conceal item).map Token.bare := by
  induction item generalizing ps with
  | nil =>
    obtain rfl := List.map_eq_nil_iff.1 tokens
    rfl
  | cons t ts ih =>
    cases ps with
    | nil => simp at tokens
    | cons p ps =>
      rw [List.map_cons, List.map_cons, List.cons.injEq] at tokens
      rw [concealPieces, conceal]
      split
      · rw [token_closeUp, tokens.2]
      · rw [List.map_cons, List.map_cons, ih tokens.2, tokens.1]

theorem isPlain_publishPieces (plain : ∀ p ∈ ps, p.IsPlain) :
    ∀ p ∈ h.publishPieces item ps, p.IsPlain := by
  induction item generalizing ps with
  | nil => simpa [publishPieces] using plain
  | cons t ts ih =>
    cases ps with
    | nil => simp [publishPieces]
    | cons p ps =>
      rw [List.forall_mem_cons] at plain
      have word : p.asPublic.IsPlain :=
        ⟨plain.1.1, isPlain_of_noBackslash (s := Text.ofString "public") (by decide)⟩
      rw [publishPieces]
      split
      · exact List.forall_mem_cons.2 ⟨word, plain.2⟩
      · split
        · exact List.forall_mem_cons.2 ⟨word, List.forall_mem_cons.2
            ⟨⟨isPlain_singleton _, plain.1.2⟩, plain.2⟩⟩
        · exact List.forall_mem_cons.2 ⟨plain.1, ih plain.2⟩

end Header

/-! ## Edits as changes -/

/-- Whether the edits of an item that begins at `start` make it `new`. -/
def Edited (start : Nat) (pieces : List Piece) (edits : List Edit) (new : Text) : Prop :=
  ∃ change, Amends change (source pieces) ∧ Stretch.edits start change = edits ∧
    Stretch.after change = new

theorem edited_nil (start : Nat) (pieces : List Piece) :
    Edited start pieces [] (source pieces) := by
  refine ⟨[.stays (source pieces)], ⟨?_, ?_, fun _ => rfl⟩, rfl, ?_⟩
  · simp [Stretch.before, Stretch.old]
  · simp [Stretch.Sound, Stretch.changes]
  · simp [Stretch.after, Stretch.new]

theorem edited_spot (start : Nat) (pieces : List Piece) (front old new rest back : Text)
    (whole : source pieces = front ++ (old ++ rest ++ back)) (more : old ++ rest ≠ []) :
    Edited start pieces [⟨start + front.length, old.length, new⟩]
      (front ++ (new ++ rest ++ back)) := by
  refine ⟨[.stays front, .edit old new rest, .stays back], ⟨?_, ?_, fun _ => rfl⟩, rfl, ?_⟩
  · rw [whole]
    simp [Stretch.before, Stretch.old]
  · simpa [Stretch.Sound, Stretch.changes, Stretch.old] using more
  · simp [Stretch.after, Stretch.new]

theorem Role.ofItem_eq_type {item : Item} {h : Header} (found : Role.ofItem item = .type h) :
    Header.ofItem? item = some h := by
  cases item with
  | nil => simp [Role.ofItem] at found
  | cons first item =>
    rw [Role.ofItem] at found
    split at found
    · simp at found
    split at found
    · simp at found
    split at found
    · rename_i is
      rw [is, Role.type.inj found]
    · simp at found

/-- Whether the lexeme begins with something that shows. -/
def Piece.IsInk (p : Piece) : Prop :=
  ∃ c s, p.lexeme = c :: s ∧ c.isBlank = false

theorem Piece.IsInk.ne_nil {p : Piece} (ink : p.IsInk) : p.lexeme ≠ [] := by
  obtain ⟨c, s, lexeme, -⟩ := ink
  simp [lexeme]

theorem Scan.Fits.isInk {ps : List Piece} {s : Text} (fits : Fits ps s) : ∀ p ∈ ps, p.IsInk := by
  induction ps with
  | nil => simp
  | cons p ps ih =>
    rw [List.forall_mem_cons]
    exact ⟨fits.2.1.head, ih fits.2.2⟩

section

variable {u : CompilationUnit} {t : TypeDecl} {part : Part}

theorem Shows.text_eq {edits : List Edit} {new : Text} (shows : Shows u t part)
    (edited : Edited t.span.start part.pieces edits new) :
    u.text t.span edits = new ++ part.trailing := by
  obtain ⟨change, amends, rfl, rfl⟩ := edited
  exact shows.text change amends

theorem Shows.visibility_eq (shows : Shows u t part) :
    t.header.visibility = part.header.visibility := by
  rw [shows.header]

theorem Shows.spot (shows : Shows u t part) {front back : Item} {v : Token}
    (split : part.item = front ++ v :: back) :
    ∃ ps p qs, part.pieces = ps ++ p :: qs ∧ ps.length = front.length ∧ p.token = v.bare ∧
      qs.map Piece.token = back.map Token.bare ∧
      (Layout.offset? (.ofText u.code) v).getD 0
        = t.span.start + (source ps ++ p.gap).length := by
  obtain ⟨ps, p, qs, whole, before, token, behind, offset⟩ := shows.spots front v back split
  refine ⟨ps, p, qs, whole, ?_, token, behind, ?_⟩
  · simpa using congrArg List.length before
  · rw [offset, Option.getD_some, List.length_append, Nat.add_assoc]

theorem Shows.tokens (shows : Shows u t part) :
    part.pieces.map Piece.token = part.item.map Token.bare := by
  obtain ⟨before, name, rest, split, -⟩ := Header.ofItem?_split (Role.ofItem_eq_type shows.found)
  obtain ⟨ps, p, qs, pieces, front, token, behind, -⟩ := shows.spots before _ _ split
  rw [pieces, split, List.map_append, List.map_append, List.map_cons, List.map_cons, front, token,
    behind]

theorem source_spot (ps : List Piece) (p : Piece) (qs : List Piece) :
    source (ps ++ p :: qs) = source ps ++ p.gap ++ (p.lexeme ++ source qs) := by
  simp [source_append, source_cons]

/-- The edit that makes a type public changes its visibility, or puts one in. -/
theorem Shows.edited_public (shows : Shows u t part) (ink : ∀ p ∈ part.pieces, p.IsInk) :
    Edited t.span.start part.pieces (publicEdit? t).toList
      (source (part.header.publishPieces part.item part.pieces)) := by
  have found := Role.ofItem_eq_type shows.found
  obtain ⟨-, anchorMem, -⟩ := Header.ofItem?_mem found
  cases visible : part.header.visibilityToken with
  | some v =>
    obtain ⟨kind, value, written, -⟩ := Header.ofItem?_visibility found visible
    obtain ⟨-, -, visibleMem⟩ := Header.ofItem?_mem found
    obtain ⟨front, back, split, none⟩ := List.eq_append_cons_of_mem (visibleMem v visible)
    obtain ⟨ps, p, qs, pieces, length, token, -, offset⟩ := shows.spot split
    have lexeme : p.lexeme = part.header.visibility.word := by
      rw [← value]
      exact congrArg Token.value token
    rw [split, pieces, Header.publishPieces_of_some visible none length, source_spot]
    rw [publicEdit?, shows.visibilityOffset, visible]
    split
    · rename_i isPublic
      have word : p.lexeme = Text.ofString "public" := by
        rw [TypeDecl.isPublic, shows.visibility_eq, decide_eq_true_eq] at isPublic
        rw [lexeme, isPublic]
        rfl
      have plain := edited_nil t.span.start (ps ++ p :: qs)
      rw [source_spot, word] at plain
      exact plain
    · rw [Option.map_some, offset, shows.header, ← lexeme]
      have edited := edited_spot t.span.start (ps ++ p :: qs) (source ps ++ p.gap) p.lexeme
        "public" [] (source qs) (by rw [source_spot, List.append_nil]) (by
          rw [List.append_nil, lexeme]
          revert written
          cases part.header.visibility <;> decide)
      rw [List.append_nil] at edited
      exact edited
  | none =>
    obtain ⟨front, back, split, none⟩ := List.eq_append_cons_of_mem anchorMem
    obtain ⟨ps, p, qs, pieces, length, token, -, offset⟩ := shows.spot split
    have edited := edited_spot t.span.start (ps ++ p :: qs) (source ps ++ p.gap) [] "public "
      p.lexeme (source qs) (source_spot ps p qs) (ink p (by simp [pieces])).ne_nil
    have new : source (ps ++ p.asPublic :: p.behindBlank :: qs)
        = source ps ++ p.gap ++ (Text.ofString "public " ++ p.lexeme ++ source qs) := by
      rw [source_spot, source_cons, show Text.ofString "public "
        = Text.ofString "public" ++ [ofChar ' '] from rfl]
      simp [Piece.asPublic, Piece.behindBlank]
    have notPublic : t.isPublic = false := by
      rw [TypeDecl.isPublic, shows.visibility_eq, Header.visibility, visible]
      rfl
    rw [split, pieces, Header.publishPieces_of_none visible none length, new, publicEdit?,
      shows.visibilityOffset, visible, shows.anchorOffset, offset, if_neg (by simp [notPublic])]
    exact edited

theorem Shows.isPublic_iff (shows : Shows u t part) :
    t.isPublic = true ↔ part.header.visibility = .publicAccess := by
  rw [TypeDecl.isPublic, shows.visibility_eq, decide_eq_true_eq]

/-- The pieces of an item that is no longer public. -/
def Header.demotePieces (h : Header) (item : Item) (pieces : List Piece) : List Piece :=
  if h.visibility = .publicAccess then h.concealPieces item pieces else pieces

def Header.demote (h : Header) (item : Item) : Item :=
  if h.visibility = .publicAccess then h.conceal item else item

/-- The edit that takes the visibility of a type, whichever it is, and the blanks after it from the
type's header. -/
def CompilationUnit.hideEdit? (code : Text) (t : TypeDecl) : Option Edit :=
  t.visibilityOffset.map fun offset =>
    let length := t.header.visibility.word.length
    ⟨offset, length + blanksLength (code.drop (offset + length)), []⟩

theorem Shows.edited_hide (shows : Shows u t part) (ink : ∀ p ∈ part.pieces, p.IsInk) :
    Edited t.span.start part.pieces (hideEdit? u.code t).toList
      (source (part.header.concealPieces part.item part.pieces)) := by
  have found := Role.ofItem_eq_type shows.found
  rw [hideEdit?, shows.visibilityOffset]
  cases visible : part.header.visibilityToken with
  | none =>
    rw [Header.concealPieces_of_none visible]
    exact edited_nil _ _
  | some v =>
    obtain ⟨kind, value, written, more⟩ := Header.ofItem?_visibility found visible
    obtain ⟨-, -, visibleMem⟩ := Header.ofItem?_mem found
    obtain ⟨front, back, split, none⟩ := List.eq_append_cons_of_mem (visibleMem v visible)
    obtain ⟨ps, p, qs, pieces, length, token, behind, offset⟩ := shows.spot split
    obtain ⟨q, qs, rfl⟩ : ∃ q qs', qs = q :: qs' := by
      apply List.exists_cons_of_ne_nil
      rintro rfl
      exact more front back split none (by simpa using behind.symm)
    have lexeme : p.lexeme = part.header.visibility.word := by
      rw [← value]
      exact congrArg Token.value token
    obtain ⟨before, after, code, start⟩ := shows.stands
    obtain ⟨c, s, first, visibleChar⟩ := ink q (by simp [pieces])
    have whole : u.code = before ++ (source ps ++ p.gap) ++ p.lexeme
        ++ (q.gap ++ (q.lexeme ++ (source qs ++ after))) := by
      rw [code, pieces, source_spot, source_cons]
      simp
    have rest : u.code.drop (t.span.start + (source ps ++ p.gap).length + p.lexeme.length)
        = q.gap ++ (q.lexeme ++ (source qs ++ after)) := by
      rw [whole]
      apply List.drop_left'
      simp only [List.length_append]
      omega
    have blanks := (@takeWhile_gap q.gap (q.lexeme ++ (source qs ++ after))
      (by simpa [first] using visibleChar)).1
    have edited := edited_spot t.span.start (ps ++ p :: q :: qs) (source ps ++ p.gap)
      (p.lexeme ++ q.gap.takeWhile isSpaceOrTab) [] (q.gap.dropWhile isSpaceOrTab)
      (q.lexeme ++ source qs)
      (by
        rw [source_spot, source_cons]
        conv => lhs; rw [← List.takeWhile_append_dropWhile (p := isSpaceOrTab) (l := q.gap)]
        simp only [List.append_assoc])
      (by
        have more := (ink p (by simp [pieces])).ne_nil
        simp [more])
    rw [split, pieces, Header.concealPieces_of_some visible none length]
    simp only [Option.map_some, offset, Option.toList_some]
    rw [shows.header, ← lexeme, rest, blanksLength, blanks, ← List.length_append]
    have new : source (ps ++ q.movedUp p.gap :: qs)
        = source ps ++ p.gap
          ++ ([] ++ q.gap.dropWhile isSpaceOrTab ++ (q.lexeme ++ source qs)) := by
      simp [source_spot, Piece.movedUp]
    rw [new]
    exact edited

theorem CompilationUnit.stripPublicEdit?_of_isPublic {t : TypeDecl} (isPublic : t.isPublic = true)
    (code : Text) : stripPublicEdit? code t = hideEdit? code t := by
  have visibility : t.header.visibility = .publicAccess := of_decide_eq_true isPublic
  rw [stripPublicEdit?, if_pos isPublic, hideEdit?, visibility]

/-- The edit that strips a type of `public` takes the word out with the blanks after it. -/
theorem Shows.edited_strip (shows : Shows u t part) (ink : ∀ p ∈ part.pieces, p.IsInk) :
    Edited t.span.start part.pieces (stripPublicEdit? u.code t).toList
      (source (part.header.demotePieces part.item part.pieces)) := by
  by_cases isPublic : part.header.visibility = .publicAccess
  · rw [Header.demotePieces, if_pos isPublic,
      stripPublicEdit?_of_isPublic (shows.isPublic_iff.2 isPublic)]
    exact shows.edited_hide ink
  · rw [Header.demotePieces, if_neg isPublic, stripPublicEdit?,
      if_neg (fun is => isPublic (shows.isPublic_iff.1 is))]
    exact edited_nil _ _

/-! ## What is read when a header is edited -/

theorem kindOfWord_modifier {word : Text} (isModifier : kindOfWord word = .modifier) :
    word ∈ modifiers := by
  rw [kindOfWord] at isModifier
  split at isModifier
  · rename_i mem
    exact List.contains_iff_mem.1 mem
  · repeat' split at isModifier
    all_goals simp at isModifier

/-- The token before which a modifier goes does not run on in a number before it. -/
theorem not_lingers_anchor {item : Item} {h : Header} {lexeme s : Text}
    (found : Header.ofItem? item = some h) (lex : Lexeme h.anchor.kind lexeme s)
    (value : h.anchor.value = lexeme) {d : CodePoint} (head : lexeme.head? = some d) :
    d.lingers = false := by
  have words {words : List Text} (mem : lexeme ∈ words)
      (quiet : ∀ w ∈ words, (w.head?.map lingers).getD false = false) : d.lingers = false := by
    simpa [head] using quiet lexeme mem
  obtain ⟨before, name, rest, -, -, ⟨previous, opens⟩, anchor, -⟩ := Header.ofItem?_split found
  rcases anchor with ⟨-, kind | kind⟩ | anchor
  · rw [kind] at lex
    exact words (kindOfWord_modifier (lex.name rfl).1.symm) (by decide)
  · rw [kind] at lex
    exact words (List.mem_singleton.2 lex.atSign) (by decide)
  · rw [anchor] at value
    simp only [opensType, Bool.and_eq_true, List.contains_iff_mem, value] at opens
    exact words opens.1.2 (by decide)

theorem isName_public : IsName (Text.ofString "public") :=
  ⟨ofChar 'p', _, rfl, by decide +kernel, by decide +kernel⟩

/-- Whether `public ` put in before the type's anchor joins nothing before it. -/
def CompilationUnit.IsLoose (u : CompilationUnit) (t : TypeDecl) : Prop :=
  t.header.visibilityToken = none →
    ∀ c ∈ (u.code.take t.anchorOffset).getLast?, c.continuesName = false

instance (u : CompilationUnit) (t : TypeDecl) : Decidable (u.IsLoose t) :=
  inferInstanceAs (Decidable (_ → _))

theorem Shows.fits_public {s : Text} (shows : Shows u t part) (fits : Fits part.pieces s)
    (loose : u.IsLoose t) : Fits (part.header.publishPieces part.item part.pieces) s := by
  have found := Role.ofItem_eq_type shows.found
  obtain ⟨-, anchorMem, visibleMem⟩ := Header.ofItem?_mem found
  cases visible : part.header.visibilityToken with
  | some v =>
    obtain ⟨kind, value, written, -⟩ := Header.ofItem?_visibility found visible
    obtain ⟨front, back, split, none⟩ := List.eq_append_cons_of_mem (visibleMem v visible)
    obtain ⟨ps, p, qs, pieces, length, token, -, -⟩ := shows.spot split
    rw [split, pieces, Header.publishPieces_of_some visible none length]
    rw [pieces] at fits
    have word : p.kind.isWord = true := by
      have : p.kind = v.kind := congrArg Token.kind token
      rw [this, kind]
      rfl
    have head : p.lexeme.head? = (Text.ofString "public").head? := by
      have : p.lexeme = v.value := congrArg Token.value token
      rw [this, value]
      revert written
      cases part.header.visibility <;> decide
    exact fits.replace word isName_public head (by decide)
  | none =>
    obtain ⟨front, back, split, none⟩ := List.eq_append_cons_of_mem anchorMem
    obtain ⟨ps, p, qs, pieces, length, token, -, offset⟩ := shows.spot split
    rw [split, pieces, Header.publishPieces_of_none visible none length]
    rw [pieces] at fits
    obtain ⟨fitsFront, -, lex, -⟩ := fits_append.1 fits
    have kind : p.kind = part.header.anchor.kind := congrArg Token.kind token
    have value : p.lexeme = part.header.anchor.value := congrArg Token.value token
    apply fits.insert isName_public (by decide)
    · by_cases gap : p.gap = []
      · right
        intro q last
        obtain ⟨init, rfl⟩ := List.getLast?_eq_some_iff.1 last
        obtain ⟨-, -, lexLast, -⟩ := fits_append.1 fitsFront
        obtain ⟨d, ends⟩ := Option.isSome_iff_exists.1 (List.getLast?_isSome.2 lexLast.ne_nil)
        obtain ⟨before, after, code, start⟩ := shows.stands
        have whole : u.code = before ++ (source (init ++ [q]) ++ p.gap)
            ++ (p.lexeme ++ source qs ++ after) := by
          rw [code, pieces, source_spot]
          simp
        have taken : (u.code.take t.anchorOffset).getLast? = some d := by
          rw [shows.anchorOffset, offset, whole, List.take_left' (by simp [start]), gap,
            List.append_nil, source_append, source_cons, source_nil, List.append_nil]
          simp [ends]
        have other := loose (by rw [shows.header, visible]) d taken
        constructor
        · rw [Bool.eq_false_iff]
          intro word
          simp [lexLast.last_continues (.inl word) ends] at other
        · intro hex
          simp [lexLast.last_continues (.inr hex) ends] at other
      · exact .inl gap
    · intro d head
      exact not_lingers_anchor found (kind ▸ lex) value.symm head

end

end JavaUnits
