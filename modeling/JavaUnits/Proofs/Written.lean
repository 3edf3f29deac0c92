import JavaUnits.Proofs.Edits
import JavaUnits.Proofs.TypeHeader

/-!
Declarations of types as a text has them, taken apart at the visibility. Setting the visibility to
`public` and taking it out again leaves the declaration as it is without one, and neither makes
tokens of the text run together.
-/

namespace JavaUnits

open CodePoint Token Scan Text CompilationUnit

/-- The pieces of a declaration before its visibility, or before the place where a missing one goes,
those behind it, and what is left behind the declaration. -/
structure Written where
  front : List Piece
  visible : Option Piece
  back : List Piece
  trailing : Text

namespace Written

def pieces (w : Written) : List Piece :=
  w.front ++ (w.visible.toList ++ w.back)

def text (w : Written) : Text :=
  source w.pieces ++ w.trailing

/-- The declaration made public. -/
def published (w : Written) : Written :=
  match w.visible, w.back with
  | some v, _ => { w with visible := some v.asPublic }
  | none, q :: qs => { w with visible := some q.asPublic, back := q.behindBlank :: qs }
  | none, [] => w

/-- The declaration without its visibility and the blanks behind that. -/
def hidden (w : Written) : Written :=
  match w.visible with
  | some v => { w with visible := none, back := Piece.closeUp v.gap w.back }
  | none => w

theorem hidden_of_none {w : Written} (none : w.visible = none) : w.hidden = w := by
  rw [hidden, none]

theorem published_published (w : Written) : w.published.published = w.published := by
  obtain ⟨front, visible, back, trailing⟩ := w
  cases visible with
  | some v => rfl
  | none => cases back <;> rfl

theorem leadingGap_published (w : Written) :
    leadingGap w.published.pieces = leadingGap w.pieces := by
  obtain ⟨front, visible, back, trailing⟩ := w
  cases front with
  | cons p ps =>
    cases visible with
    | some v => rfl
    | none => cases back <;> rfl
  | nil =>
    cases visible with
    | some v => rfl
    | none => cases back <;> rfl

@[simp] theorem trailing_published (w : Written) : w.published.trailing = w.trailing := by
  rw [published]
  split <;> rfl

@[simp] theorem trailing_hidden (w : Written) : w.hidden.trailing = w.trailing := by
  rw [hidden]
  split <;> rfl

/-- Whether the pieces are those of the declaration, taken apart where its visibility stands. -/
structure Declares (w : Written) (d : TypeSyntax) : Prop where
  sound : d.IsSound
  turns : ∃ back, d.Turns (w.front.map Piece.token) (w.visible.map Piece.token) back ∧
    w.back.map Piece.token = back ++ (d.sign ++ d.keyword :: d.members)

section

variable {w : Written} {d : TypeSyntax}

theorem Declares.tokens (declares : w.Declares d) : w.pieces.map Piece.token = d.tokens := by
  obtain ⟨back, turns, behind⟩ := declares.turns
  rw [pieces, List.map_append, List.map_append, behind, TypeSyntax.tokens, turns.marks]
  cases w.visible <;> simp [TypeSyntax.members]

theorem Declares.exists_back (declares : w.Declares d) : ∃ q qs, w.back = q :: qs := by
  obtain ⟨back, -, behind⟩ := declares.turns
  apply List.exists_cons_of_ne_nil
  intro none
  simp [none] at behind

theorem exists_declares {pieces : List Piece} (sound : d.IsSound)
    (tokens : pieces.map Piece.token = d.tokens) (trailing : Text) :
    ∃ w : Written, w.pieces = pieces ∧ w.trailing = trailing ∧ w.Declares d := by
  obtain ⟨front, visible, back, turns⟩ := sound.exists_turns
  have whole : pieces.map Piece.token
      = front ++ (visible.toList ++ (back ++ (d.sign ++ d.keyword :: d.members))) := by
    rw [tokens, TypeSyntax.tokens, turns.marks]
    simp [TypeSyntax.members]
  obtain ⟨ps, rest, rfl, sameFront, later⟩ := List.map_eq_append_iff.1 whole
  obtain ⟨vs, qs, rfl, sameVisible, sameBack⟩ := List.map_eq_append_iff.1 later
  obtain ⟨v, rfl, sameV⟩ : ∃ v : Option Piece, vs = v.toList ∧ v.map Piece.token = visible := by
    cases visible with
    | none => exact ⟨none, List.map_eq_nil_iff.1 sameVisible, rfl⟩
    | some t =>
      obtain ⟨v, rfl, sameV⟩ := List.map_eq_singleton_iff.1 sameVisible
      exact ⟨some v, rfl, congrArg some sameV⟩
  refine ⟨⟨ps, v, qs, trailing⟩, rfl, rfl, sound, back, ?_, sameBack⟩
  rw [sameFront, sameV]
  exact turns

theorem isVisibility_publicToken (position : Position) :
    (Header.publicToken position).isVisibility = true := by
  have : (Visibility.ofModifier? (Text.ofString "public")).isSome = true := by decide
  exact this

theorem filter_isVisibility {ts : List Token} (hidden : ∀ t ∈ ts, t.isVisibility = false) :
    ts.filter isVisibility = [] := by
  rw [List.filter_eq_nil_iff]
  simpa using hidden

theorem Declares.published (declares : w.Declares d) :
    ∃ ms, w.published.Declares (d.withMarks ms) ∧
      (d.withMarks ms).header.visibility = .publicAccess := by
  obtain ⟨back, turns, behind⟩ := declares.turns
  obtain ⟨q, qs, cons⟩ := declares.exists_back
  have visible := isVisibility_publicToken .start
  have kind : (Header.publicToken .start).kind = .modifier := rfl
  have mem : (Header.publicToken .start).value ∈ modifiers := by decide
  have turned : (d.withMarks (w.front.map Piece.token ++ Header.publicToken .start :: back)).Turns
      (w.front.map Piece.token) (some (Header.publicToken .start)) back := by
    refine ⟨rfl, turns.before, turns.behind, turns.hidden, ?_, by simp⟩
    rintro t ⟨rfl⟩
    exact ⟨kind, mem, visible⟩
  refine ⟨_, ⟨declares.sound.withMarks (turns.before.append (.modifier kind mem turns.behind)) ?_,
    back, ?_, ?_⟩, ?_⟩
  · have all := turned.modifiersOf_eq
    have quiet := turns.hidden
    simp only [List.mem_append, or_imp, forall_and] at quiet
    rw [TypeSyntax.withMarks] at all
    rw [all, List.filter_append, filter_isVisibility quiet.1]
    simp [visible, filter_isVisibility quiet.2]
  · have front : w.published.front = w.front := by
      rw [Written.published]
      split <;> rfl
    have token : w.published.visible.map Piece.token = some (Header.publicToken .start) := by
      rw [Written.published, cons]
      split
      · rfl
      · rfl
      · contradiction
    rw [front, token]
    exact turned
  · have same : w.published.back.map Piece.token = w.back.map Piece.token := by
      rw [Written.published, cons]
      split
      · rfl
      · rename_i eq
        rw [← (List.cons.inj eq).1, ← (List.cons.inj eq).2]
        rfl
      · contradiction
    rw [same]
    exact behind
  · rw [Header.visibility, turned.visibilityToken]
    decide

/-- Whether the visibility stands before all other modifiers, with one blank behind it and then the
next of these, or the type keyword where there are none. -/
structure IsSpaced (w : Written) (d : TypeSyntax) : Prop where
  leads : Header.modifiersOf (w.front.map Piece.token) = []
  blank : ∀ p, w.back.head? = some p → p.gap = [ofChar ' ']
  next : ∃ back, w.back.map Piece.token = back ++ (d.sign ++ d.keyword :: d.members) ∧
    ∀ t, back.head? = some t → t.kind = .modifier ∧ t.value ∈ Token.modifiers

/-- What is taken out of a spaced declaration is put in again as it was. -/
theorem Declares.exists_hidden (declares : w.Declares d) (spaced : w.IsSpaced d)
    (isPublic : d.header.visibility = .publicAccess) :
    ∃ ms, w.hidden.Declares (d.withMarks ms) ∧ w.hidden.published = w := by
  obtain ⟨back, turns, behind⟩ := declares.turns
  obtain ⟨back', behind', next⟩ := spaced.next
  obtain rfl := List.append_cancel_right (behind.symm.trans behind')
  obtain ⟨q, qs, cons⟩ := declares.exists_back
  obtain ⟨v, visible, word⟩ : ∃ v, w.visible = some v ∧ v.lexeme = Text.ofString "public" := by
    rw [Header.visibility, turns.visibilityToken] at isPublic
    cases visible : w.visible with
    | none => simp [visible] at isPublic
    | some v =>
      refine ⟨v, rfl, ?_⟩
      rw [visible] at isPublic
      cases found : Visibility.ofModifier? v.lexeme with
      | none => simp [Piece.token, found] at isPublic
      | some access =>
        obtain rfl : access = .publicAccess := by simpa [Piece.token, found] using isPublic
        exact (Header.ofModifier?_eq_some found).1.symm
  have hidden : w.hidden = { w with visible := none, back := q.movedUp v.gap :: qs } := by
    rw [Written.hidden, visible, cons]
    rfl
  refine ⟨w.front.map Piece.token ++ back, ⟨turns.isSound_hidden declares.sound, back, ?_, ?_⟩, ?_⟩
  · rw [hidden]
    exact ⟨rfl, turns.before, turns.behind, turns.hidden, by simp, fun _ => ⟨spaced.leads, next⟩⟩
  · have same : w.hidden.back.map Piece.token = w.back.map Piece.token := by
      rw [hidden, cons]
      rfl
    rw [same]
    exact behind
  · have gap := spaced.blank q (by rw [cons]; rfl)
    have close : v.gap ++ q.gap.dropWhile isSpaceOrTab = v.gap := by
      rw [gap, List.dropWhile_cons_of_pos (by decide), List.dropWhile_nil, List.append_nil]
    have kind : v.kind = .modifier := (turns.shows v.token (by rw [visible]; rfl)).1
    obtain ⟨front, _, _, trailing⟩ := w
    obtain rfl : _ = some v := visible
    obtain rfl : _ = q :: qs := cons
    rw [hidden, Written.published]
    simp only [Piece.movedUp, Piece.asPublic, Piece.behindBlank, close]
    rw [← gap, ← kind, ← word]

/-! ## No tokens run together -/

theorem hidden_some {v q : Piece} {qs : List Piece} (visible : w.visible = some v)
    (cons : w.back = q :: qs) : w.hidden.pieces = w.front ++ q.movedUp v.gap :: qs := by
  rw [hidden, visible]
  simp [pieces, cons, Piece.closeUp]

theorem Declares.fits_hidden {s : Text} (declares : w.Declares d) (fits : Fits w.pieces s) :
    Fits w.hidden.pieces s := by
  cases visible : w.visible with
  | none => rwa [hidden_of_none visible]
  | some v =>
    obtain ⟨q, qs, cons⟩ := declares.exists_back
    obtain ⟨back, turns, -⟩ := declares.turns
    rw [hidden_some visible cons]
    rw [pieces, visible, cons, Option.toList_some, List.singleton_append] at fits
    obtain ⟨before, -, lex, gap, -⟩ := fits_append.1 fits
    apply fits.remove
    · rw [← List.takeWhile_append_dropWhile (p := isSpaceOrTab) (l := q.gap)] at gap
      exact gap.of_append_blank fun c mem => isBlank_of_isSpaceOrTab (List.mem_takeWhile_imp mem)
    · by_cases none : v.gap = []
      · right
        intro p last
        have token : (w.front.map Piece.token).getLast? = some p.token := by simp [last]
        have kind : v.kind = .modifier := by
          rw [visible] at turns
          exact (turns.shows v.token rfl).1
        obtain ⟨init, split⟩ := List.getLast?_eq_some_iff.1 last
        rw [split] at before
        obtain ⟨-, -, lexLast, -⟩ := fits_append.1 before
        -- A word ends where no word goes on, but the visibility is a word itself.
        have noWord : p.kind.isWord = false := by
          rw [Bool.eq_false_iff]
          intro word
          obtain ⟨-, -, stop⟩ := lexLast.name word
          have isName := (lex.name (by rw [kind]; rfl)).2.1
          obtain ⟨c, u, lexeme, -⟩ := isName.head
          have goes := isName.continues c (by simp [lexeme])
          simp [source_cons, none, lexeme, continuesIn, goes] at stop
        rcases Header.last_marks turns.before p.token token with ⟨kind, -⟩ | kind | closes
        · have : p.kind = .modifier := kind
          simp [this, Kind.isWord] at noWord
        · have : p.kind = .identifier := kind
          simp [this, Kind.isWord] at noWord
        · simp only [closesParen, isSeparator, Bool.and_eq_true, beq_iff_eq, Piece.token] at closes
          simp only [Piece.isSealed, Bool.and_eq_true, decide_eq_true_eq, bne_iff_ne, ne_eq]
          exact ⟨of_decide_eq_true closes.1, by rw [closes.2]; decide⟩
      · exact .inl none

theorem lexeme_hidden {p : Piece} (mem : p ∈ w.hidden.pieces) :
    ∃ q ∈ w.pieces, q.lexeme = p.lexeme := by
  cases visible : w.visible with
  | none =>
    rw [hidden_of_none visible] at mem
    exact ⟨p, mem, rfl⟩
  | some v =>
    rw [pieces, visible]
    rw [hidden, visible, pieces, Option.toList_none, List.nil_append] at mem
    rcases List.mem_append.1 mem with mem | mem
    · exact ⟨p, List.mem_append_left _ mem, rfl⟩
    · cases cons : w.back with
      | nil =>
        rw [cons] at mem
        cases mem
      | cons q qs =>
        rw [cons] at mem
        rcases List.mem_cons.1 mem with rfl | mem
        · exact ⟨q, by simp, rfl⟩
        · exact ⟨p, by simp [mem], rfl⟩

/-! ## Something else behind a declaration -/

/-- The declaration with something else behind it. -/
def behind (trailing : Text) (w : Written) : Written :=
  { w with trailing := trailing }

theorem published_behind (trailing : Text) (w : Written) :
    (w.behind trailing).published = w.published.behind trailing := by
  obtain ⟨front, visible, back, _⟩ := w
  cases visible with
  | some v => rfl
  | none => cases back <;> rfl

theorem Declares.ne_nil (declares : w.Declares d) : w.pieces ≠ [] := by
  obtain ⟨q, qs, cons⟩ := declares.exists_back
  simp [pieces, cons]

theorem Declares.hidden_ne_nil (declares : w.Declares d) : w.hidden.pieces ≠ [] := by
  obtain ⟨q, qs, cons⟩ := declares.exists_back
  cases visible : w.visible with
  | none =>
    rw [hidden_of_none visible]
    exact declares.ne_nil
  | some v =>
    rw [hidden_some visible cons]
    simp

end

end Written

/-! ## Parts of a text -/

section

variable {u : CompilationUnit} {t : TypeDecl} {part : Part}

theorem Spots.notMem {layout : Layout} {start : Nat} {front back : Item} {v : Token}
    {pieces : List Piece} (spots : Spots layout start (front ++ v :: back) pieces)
    (ink : ∀ p ∈ pieces, p.IsInk) : v ∉ front := by
  intro mem
  obtain ⟨before, between, rfl⟩ := List.append_of_mem mem
  obtain ⟨ps, p, qs, whole, front, -, -, offset⟩ := spots before v (between ++ v :: back) (by simp)
  obtain ⟨ps', p', qs', same, frontLater, -, -, offsetLater⟩ := spots _ v back rfl
  rw [offset, Option.some.injEq] at offsetLater
  have shorter : ps.length < ps'.length := by
    have first := congrArg List.length front
    have second := congrArg List.length frontLater
    simp only [List.length_map, List.length_append, List.length_cons] at first second
    omega
  rw [whole] at same
  obtain ⟨more, rfl, -⟩ | ⟨more, rfl, -⟩ := List.append_eq_append_iff.1 same
  · cases more with
    | nil => simp at shorter
    | cons r more =>
      obtain ⟨rfl, -⟩ : r = p ∧ True := by
        simp only [List.append_assoc, List.append_cancel_left_eq, List.cons_append,
          List.cons.injEq] at same
        exact ⟨same.1.symm, trivial⟩
      have lexeme := (ink r (by simp [whole])).ne_nil
      have := List.length_pos_iff.2 lexeme
      simp only [source_append, source_cons, List.length_append] at offsetLater
      omega
  · simp only [List.length_append] at shorter
    omega

/-- The tokens of a type's part, with their places, are a declaration taken apart at the same
piece. -/
theorem Shows.exists_tokens (shows : Shows u t part) {w : Written} {d : TypeSyntax}
    (pieces : part.pieces = w.pieces) (declares : w.Declares d) :
    ∃ d' : TypeSyntax, part.item = d'.tokens ∧ d'.bare = d.bare ∧ d'.IsSound ∧
      part.header = d'.header := by
  have tokens := shows.tokens
  rw [pieces, declares.tokens] at tokens
  obtain ⟨d', item, same⟩ := @TypeSyntax.exists_bare d part.item (by
    have whole := congrArg (List.map Token.bare) tokens
    rw [List.map_map] at whole
    rw [TypeSyntax.tokens_bare]
    exact whole.symm)
  have sound : d'.IsSound := by
    rw [← TypeSyntax.isSound_bare, same, TypeSyntax.isSound_bare]
    exact declares.sound
  refine ⟨d', item, same, sound, ?_⟩
  have found := Role.ofItem_eq_type shows.found
  rw [item, sound.ofItem?] at found
  exact (Option.some.inj found).symm

theorem Shows.header_bare (shows : Shows u t part) {w : Written} {d : TypeSyntax}
    (pieces : part.pieces = w.pieces) (declares : w.Declares d) :
    part.header.bare = d.header.bare := by
  obtain ⟨d', item, same, sound, header⟩ := shows.exists_tokens pieces declares
  rw [header, ← sound.header_bare, same, declares.sound.header_bare]

theorem Shows.edited_written (shows : Shows u t part) (ink : ∀ p ∈ part.pieces, p.IsInk)
    {w : Written} {d : TypeSyntax} (pieces : part.pieces = w.pieces) (declares : w.Declares d) :
    part.header.publishPieces part.item part.pieces = w.published.pieces ∧
      part.header.concealPieces part.item part.pieces = w.hidden.pieces := by
  obtain ⟨d', item, same, sound, header⟩ := shows.exists_tokens pieces declares
  obtain ⟨back, turns, behind⟩ := declares.turns
  obtain ⟨front', visible', back', turns', sameFront, sameVisible, sameBack⟩ :=
    turns.of_bare same
  obtain ⟨q, qs, cons⟩ := declares.exists_back
  have visibilityToken : part.header.visibilityToken = visible' := by
    rw [header, turns'.visibilityToken]
  have length : w.front.length = front'.length := by
    simpa using (congrArg List.length sameFront).symm
  have whole : part.item = front' ++ (visible'.toList
      ++ (back' ++ (d'.sign ++ d'.keyword :: d'.members))) := by
    rw [item, TypeSyntax.tokens, turns'.marks]
    simp [TypeSyntax.members]
  have spots := shows.spots
  cases visible : w.visible with
  | some v =>
    rw [visible] at sameVisible
    obtain ⟨v', rfl, -⟩ := Option.map_eq_some_iff.1 (show visible'.map Token.bare
      = some v.token.bare from sameVisible)
    rw [Option.toList_some, List.singleton_append] at whole
    rw [whole] at spots ⊢
    rw [pieces, Written.pieces, visible, Option.toList_some, List.singleton_append] at spots ink ⊢
    have none := spots.notMem ink
    rw [Header.publishPieces_of_some visibilityToken none length, cons,
      Header.concealPieces_of_some visibilityToken none length, Written.hidden_some visible cons,
      Written.published, visible]
    simp [Written.pieces, cons]
  | none =>
    rw [visible] at sameVisible
    obtain rfl := Option.map_eq_none_iff.1 (show visible'.map Token.bare = none from sameVisible)
    obtain ⟨rest, anchor⟩ := turns'.anchor
    rw [Option.toList_none, List.nil_append, anchor, ← header] at whole
    rw [Header.concealPieces_of_none visibilityToken, Written.hidden_of_none visible]
    refine ⟨?_, pieces⟩
    rw [whole] at spots ⊢
    rw [pieces, Written.pieces, visible, cons, Option.toList_none, List.nil_append] at spots ink ⊢
    have none := spots.notMem ink
    rw [Header.publishPieces_of_none visibilityToken none length, Written.published, visible, cons]
    simp [Written.pieces]

end

end JavaUnits
