import JavaUnits.Proofs.Group
import Mathlib.Data.List.Basic

/-!
A source text as a sequence of blocks, one an item. Between two items the text belongs in part to
the cut of the directive before, in part to the text before, and in part to the item behind it. How
it is divided depends only on the gap, on the items on either side and on whether a cut goes before.
-/

namespace JavaUnits

open CodePoint Scan

/-- What an item of a source text is. -/
inductive Role where
  | package (name : Text)
  | importDecl (i : Import)
  | type (h : Header)
  | stray
  deriving DecidableEq

namespace Role

def ofItem (item : Item) : Role :=
  match item with
  | [] => stray
  | first :: _ =>
    if first.isKeyword "package" then package (Item.joinValues (item.drop 1))
    else if first.isKeyword "import" then importDecl (.ofItem item)
    else
      match Header.ofItem? item with
      | some h => type h
      | none => stray

def isDirective : Role → Bool
  | package _ | importDecl _ => true
  | _ => false

end Role

/-- What stands before a gap. Of a directive it counts whether its cut takes the end of its line,
and whether the cut begins no later than the line on which the directive ends. -/
inductive Preceding where
  | nothing
  | item
  | directive (ownsLine reaches : Bool)
  deriving DecidableEq

namespace Preceding

/-- Whether the item behind the gap begins a line. -/
def isFresh (pre : Preceding) (gap : Text) : Bool :=
  pre = nothing || gap.contains '\n'

/-- Whether only blanks stand before the item on its line. -/
def isAlone (pre : Preceding) (gap : Text) : Bool :=
  pre.isFresh gap && Text.isBlank (Text.lastLine gap)

/-- The front of the gap that is cut out with the directive before it. -/
def taken (pre : Preceding) (gap : Text) : Text :=
  match pre with
  | directive ownsLine _ =>
    let blanks := gap.takeWhile isSpaceOrTab
    if ownsLine && (gap.dropWhile isSpaceOrTab).head? == some (ofChar '\n') then
      blanks ++ [ofChar '\n']
    else blanks
  | _ => []

@[simp] theorem taken_nothing (gap : Text) : nothing.taken gap = [] := rfl

@[simp] theorem taken_item (gap : Text) : item.taken gap = [] := rfl

/-- The end of the gap that goes with the item behind it. -/
def own (pre : Preceding) (role : Role) (gap : Text) : Text :=
  match role with
  | .type _ => if pre.isFresh gap then Text.lastLine gap else gap.dropWhile isSpaceOrTab
  | .stray => []
  | _ => if pre.isAlone gap then Text.lastLine gap else []

/-- The middle of the gap, which stays with what stands before it. -/
def kept (pre : Preceding) (role : Role) (gap : Text) : Text :=
  (gap.take (gap.length - (pre.own role gap).length)).drop (pre.taken gap).length

/-- Whether the cut of a directive behind the gap takes the end of its line. -/
def ownsLine (pre : Preceding) (gap : Text) : Bool :=
  pre.isAlone gap ||
    match pre with
    | directive _ reaches => reaches && gap.all isSpaceOrTab
    | _ => false

/-- What stands before the gap behind an item with this text. -/
def next (pre : Preceding) (role : Role) (gap text : Text) : Preceding :=
  if role.isDirective then directive (pre.ownsLine gap) (pre.isAlone gap || text.contains '\n')
  else item

end Preceding

/-- An item with its part of the text. -/
structure Block where
  item : Item
  role : Role
  /-- What stays with the text before the item. -/
  kept : Text
  /-- The item, with its own part of the gap before it. -/
  pieces : List Piece
  /-- What is cut out behind the item, if it is a directive. -/
  taken : Text

namespace Block

def text (b : Block) : Text :=
  b.kept ++ (source b.pieces ++ b.taken)

end Block

def leadingGap : List Piece → Text
  | [] => []
  | p :: _ => p.gap

def regap (gap : Text) : List Piece → List Piece
  | [] => []
  | p :: ps => { p with gap := gap } :: ps

/-- The text of the pieces without the gap before them. -/
def inkText (ps : List Piece) : Text :=
  source (regap [] ps)

def nextGap (tail : Text) : List (List Piece) → Text
  | [] => tail
  | ps :: _ => leadingGap ps

namespace Preceding

def after (pre : Preceding) (role : Role) (ps : List Piece) : Preceding :=
  pre.next role (leadingGap ps) (inkText ps)

/-- The block of an item with the gap `behind` it. -/
def block (pre : Preceding) (item : Item) (role : Role) (ps : List Piece) (behind : Text) :
    Block :=
  { item := item
    role := role
    kept := pre.kept role (leadingGap ps)
    pieces := regap (pre.own role (leadingGap ps)) ps
    taken := (pre.after role ps).taken behind }

end Preceding

/-- The blocks of the items, the first of which is scanned from `p` on. -/
def blocksFrom (pre : Preceding) (p : Position) (tail : Text) : List (List Piece) → List Block
  | [] => []
  | ps :: items =>
    let item := tokensFrom p ps
    let role := Role.ofItem item
    pre.block item role ps (nextGap tail items)
      :: blocksFrom (pre.after role ps) (positionFrom p ps) tail items

def restFrom (pre : Preceding) (p : Position) (tail : Text) : List (List Piece) → Text
  | [] => tail.drop (pre.taken tail).length
  | ps :: items =>
    restFrom (pre.after (.ofItem (tokensFrom p ps)) ps) (positionFrom p ps) tail items

def itemsFrom (p : Position) : List (List Piece) → List Item
  | [] => []
  | ps :: items => tokensFrom p ps :: itemsFrom (positionFrom p ps) items

/-! ## The parts of a gap make up the gap -/

section

variable {pre : Preceding} {role : Role} {gap : Text}

theorem source_regap (g : Text) {ps : List Piece} (more : ps ≠ []) :
    source (regap g ps) = g ++ inkText ps := by
  cases ps with
  | nil => exact absurd rfl more
  | cons p ps => simp [inkText, regap, source_cons]

theorem source_eq_inkText (ps : List Piece) : source ps = leadingGap ps ++ inkText ps := by
  cases ps with
  | nil => rfl
  | cons p ps => simp [inkText, leadingGap, regap, source_cons]

theorem lastLine_ends (s : Text) : s.lastLine <:+ s := by
  have := (List.takeWhile_prefix (l := s.reverse)
    fun c : CodePoint => decide (c ≠ ofChar '\n')).reverse
  simpa [Text.lastLine] using this

theorem own_ends (pre : Preceding) (role : Role) (gap : Text) : pre.own role gap <:+ gap := by
  have directive : (if pre.isAlone gap = true then gap.lastLine else []) <:+ gap := by
    split
    · exact lastLine_ends gap
    · exact List.nil_suffix
  cases role with
  | type =>
    rw [Preceding.own]
    split
    · exact lastLine_ends gap
    · exact List.dropWhile_suffix _
  | stray => exact List.nil_suffix
  | package => exact directive
  | importDecl => exact directive

theorem head_dropWhile_blanks {c : CodePoint} {s : Text}
    (rest : gap.dropWhile isSpaceOrTab = c :: s) :
    gap = gap.takeWhile isSpaceOrTab ++ c :: s := by
  rw [← rest, List.takeWhile_append_dropWhile]

theorem taken_begins (pre : Preceding) (gap : Text) : pre.taken gap <+: gap := by
  cases pre with
  | nothing => exact List.nil_prefix
  | item => exact List.nil_prefix
  | directive owns reaches =>
    rw [Preceding.taken]
    split
    · rename_i line
      simp only [Bool.and_eq_true, beq_iff_eq] at line
      cases rest : gap.dropWhile isSpaceOrTab with
      | nil => simp [rest] at line
      | cons c later =>
        obtain rfl : c = ofChar '\n' := by simpa [rest] using line.2
        exact ⟨later, by simpa using (head_dropWhile_blanks rest).symm⟩
    · exact List.takeWhile_prefix _

theorem break_notMem_blanks (s : Text) : ofChar '\n' ∉ s.takeWhile isSpaceOrTab := by
  intro mem
  have := List.mem_takeWhile_imp mem
  simp [show isSpaceOrTab (ofChar '\n') = false by decide] at this

/-- A cut ends before the last line break of a gap, or with it. -/
theorem taken_lastLine_le (pre : Preceding) (mem : ofChar '\n' ∈ gap) :
    (pre.taken gap).length + gap.lastLine.length ≤ gap.length := by
  cases pre with
  | nothing => simpa [Preceding.taken] using Text.lastLine_length_le gap
  | item => simpa [Preceding.taken] using Text.lastLine_length_le gap
  | directive owns reaches =>
    have split := List.takeWhile_append_dropWhile (p := isSpaceOrTab) (l := gap)
    have later : ofChar '\n' ∈ gap.dropWhile isSpaceOrTab := by
      rw [← split, List.mem_append] at mem
      exact mem.resolve_left (break_notMem_blanks gap)
    have last : gap.lastLine = Text.lastLine (gap.dropWhile isSpaceOrTab) := by
      have joined := Text.lastLine_append (gap.takeWhile isSpaceOrTab) (gap.dropWhile isSpaceOrTab)
      rwa [split, if_pos later] at joined
    have length := congrArg List.length split
    rw [List.length_append] at length
    rw [last, Preceding.taken]
    split
    · rename_i line
      simp only [Bool.and_eq_true, beq_iff_eq] at line
      cases rest : gap.dropWhile isSpaceOrTab with
      | nil => simp [rest] at line
      | cons c s =>
        obtain rfl : c = ofChar '\n' := by simpa [rest] using line.2
        have shorter : (Text.lastLine (ofChar '\n' :: s)).length ≤ s.length := by
          have := Text.lastLine_append [ofChar '\n'] s
          rw [List.singleton_append] at this
          rw [this]
          split
          · exact Text.lastLine_length_le s
          · simp [show Text.lastLine [ofChar '\n'] = [] by decide]
        rw [rest] at length
        simp only [List.length_append, List.length_cons, List.length_nil] at length ⊢
        omega
    · have := Text.lastLine_length_le (gap.dropWhile isSpaceOrTab)
      omega

theorem taken_own_le (pre : Preceding) (role : Role) (gap : Text) :
    (pre.taken gap).length + (pre.own role gap).length ≤ gap.length := by
  have whole := (taken_begins pre gap).length_le
  have line (fresh : pre.isFresh gap = true) :
      (pre.taken gap).length + gap.lastLine.length ≤ gap.length := by
    by_cases mem : ofChar '\n' ∈ gap
    · exact taken_lastLine_le pre mem
    · obtain rfl : pre = .nothing := by simpa [Preceding.isFresh, mem] using fresh
      simpa [Preceding.taken] using Text.lastLine_length_le gap
  have directive : (pre.taken gap).length
      + (if pre.isAlone gap = true then gap.lastLine else []).length ≤ gap.length := by
    split
    · rename_i alone
      simp only [Preceding.isAlone, Bool.and_eq_true] at alone
      exact line alone.1
    · simpa using whole
  cases role with
  | type =>
    rw [Preceding.own]
    split
    · rename_i fresh
      exact line fresh
    · rename_i stale
      have split := congrArg List.length
        (List.takeWhile_append_dropWhile (p := isSpaceOrTab) (l := gap))
      rw [List.length_append] at split
      have none : ofChar '\n' ∉ gap := by
        intro mem
        simp [Preceding.isFresh, mem] at stale
      have blanks : (pre.taken gap).length ≤ (gap.takeWhile isSpaceOrTab).length := by
        cases pre with
        | nothing => simp [Preceding.taken]
        | item => simp [Preceding.taken]
        | directive owns reaches =>
          rw [Preceding.taken, if_neg]
          simp only [Bool.and_eq_true, beq_iff_eq, not_and]
          intro _ head
          exact none ((List.dropWhile_suffix _).subset (List.mem_of_head? head))
      omega
  | stray => simpa [Preceding.own] using whole
  | package => exact directive
  | importDecl => exact directive

/-- The three parts of a gap make up the gap. -/
theorem gap_split (pre : Preceding) (role : Role) (gap : Text) :
    pre.taken gap ++ (pre.kept role gap ++ pre.own role gap) = gap := by
  obtain ⟨front, split⟩ := own_ends pre role gap
  obtain ⟨back, begins⟩ := taken_begins pre gap
  have bound := taken_own_le pre role gap
  have length := congrArg List.length split
  rw [List.length_append] at length
  have frontEq : gap.take (gap.length - (pre.own role gap).length) = front := by
    conv => lhs; arg 2; rw [← split]
    exact List.take_left' (by omega)
  have inside : pre.taken gap <+: front := by
    apply List.prefix_of_prefix_length_le (taken_begins pre gap) ⟨_, split⟩
    omega
  rw [Preceding.kept, frontEq, ← List.append_assoc]
  conv => rhs; rw [← split]
  rw [List.append_cancel_right_eq]
  obtain ⟨middle, rfl⟩ := inside
  rw [List.drop_left]

end

/-! ## The entries of a document -/

namespace Text

theorem slice_lineStart (s t : Text) :
    (s ++ t).slice (s.length - s.lastLine.length) s.length = s.lastLine := by
  obtain ⟨front, split⟩ := lastLine_ends s
  have length := congrArg List.length split
  rw [List.length_append] at length
  rw [slice, List.take_left]
  conv => lhs; arg 2; rw [← split]
  exact List.drop_left' (by omega)

theorem mem_lastLine {s : Text} {c : CodePoint} (last : s.getLast? = some c)
    (other : c ≠ ofChar '\n') : c ∈ s.lastLine := by
  rcases List.eq_nil_or_concat s with rfl | ⟨front, d, rfl⟩
  · simp at last
  · obtain rfl : d = c := by simpa using last
    rw [List.concat_eq_append, lastLine_append, if_neg (by simpa using Ne.symm other)]
    simp

end Text

open Text CompilationUnit

/-- What is known before a gap: the text before it, the last cut in that text, and what kind of item
the text ends with. -/
structure Follows (front : Text) (last : Option Span) (pre : Preceding) (gap : Text) : Prop where
  nothing : pre = .nothing ↔ front = []
  ended : ∀ c, front.getLast? = some c → c.isInk = true
  cut : match pre with
    | .directive _ reaches => ∃ cut, last = some cut ∧
        cut.stop = front.length + (pre.taken gap).length ∧
        (cut.start ≤ front.length - front.lastLine.length ↔ reaches = true)
    | _ => ∀ cut, last = some cut → cut.stop < front.length

theorem isInk_ne_break {c : CodePoint} (ink : c.isInk = true) : c ≠ ofChar '\n' :=
  ne_of_class ink (by decide)

section

variable {front gap text : Text} {last : Option Span} {pre : Preceding}

theorem Follows.isFresh_iff (follows : Follows front last pre gap) :
    pre.isFresh gap = true ↔ front = [] ∨ ofChar '\n' ∈ gap := by
  rw [Preceding.isFresh, Bool.or_eq_true, decide_eq_true_eq, follows.nothing,
    List.contains_iff_mem]

theorem Follows.lastLine_eq (follows : Follows front last pre gap) :
    lastLine (front ++ gap) = if pre.isFresh gap then gap.lastLine else front.lastLine ++ gap := by
  rw [lastLine_append]
  by_cases mem : ofChar '\n' ∈ gap
  · rw [if_pos mem, if_pos (follows.isFresh_iff.2 (.inr mem))]
  · rw [if_neg mem]
    by_cases begins : front = []
    · rw [if_pos (follows.isFresh_iff.2 (.inl begins)), begins, lastLine_of_noBreak mem]
      rfl
    · rw [if_neg]
      rw [follows.isFresh_iff]
      simp [begins, mem]

theorem Follows.isAlone_eq (follows : Follows front last pre gap) :
    Text.isBlank (lastLine (front ++ gap)) = pre.isAlone gap := by
  rw [follows.lastLine_eq, Preceding.isAlone]
  by_cases fresh : pre.isFresh gap = true
  · simp [fresh]
  · rw [if_neg fresh]
    have more : front ≠ [] := fun begins => fresh (follows.isFresh_iff.2 (.inl begins))
    obtain ⟨c, ends⟩ := Option.isSome_iff_exists.1 (List.getLast?_isSome.2 more)
    have ink := follows.ended c ends
    have mem := mem_lastLine ends (isInk_ne_break ink)
    have visible : Text.isBlank (front.lastLine ++ gap) = false := by
      rw [Bool.eq_false_iff]
      intro blank
      have := List.all_eq_true.1 blank c (List.mem_append_left _ mem)
      simp [isInk, this] at ink
    simp [fresh, visible]

theorem Follows.adjoins_iff (follows : Follows front last pre gap) :
    (last.map fun cut => cut.stop == front.length + gap.length).getD false = true ↔
      (∃ owns reaches, pre = .directive owns reaches) ∧ pre.taken gap = gap := by
  have whole := taken_begins pre gap
  have cut := follows.cut
  have away (before : ∀ cut, last = some cut → cut.stop < front.length) :
      ¬(last.map fun cut => cut.stop == front.length + gap.length).getD false = true := by
    cases last with
    | none => simp
    | some other =>
      have := before other rfl
      simp only [Option.map_some, Option.getD_some, beq_iff_eq]
      omega
  cases pre with
  | nothing => simp [away cut]
  | item => simp [away cut]
  | directive owns reaches =>
    obtain ⟨cut, rfl, stop, _⟩ := cut
    simp only [Option.map_some, Option.getD_some, beq_iff_eq, stop, Nat.add_left_cancel_iff]
    constructor
    · exact fun same => ⟨⟨owns, reaches, rfl⟩, whole.eq_of_length same⟩
    · exact fun same => by rw [same.2]

theorem taken_of_all {owns reaches : Bool} (blanks : gap.all isSpaceOrTab = true) :
    (Preceding.directive owns reaches).taken gap = gap := by
  have whole := List.takeWhile_eq_self_iff.2 (List.all_eq_true.1 blanks)
  have nothing : gap.dropWhile isSpaceOrTab = [] := by
    rw [List.dropWhile_eq_nil_iff]
    exact List.all_eq_true.1 blanks
  simp [Preceding.taken, whole, nothing]

/-- A gap that is cut out as a whole has blanks on one line, and perhaps the line's end. -/
theorem all_of_taken {owns reaches : Bool}
    (whole : (Preceding.directive owns reaches).taken gap = gap) :
    gap.all isSpaceOrTab = true ∨ ofChar '\n' ∈ gap ∧ gap.lastLine = [] := by
  rw [Preceding.taken] at whole
  split at whole
  · right
    rw [← whole]
    refine ⟨by simp, ?_⟩
    rw [lastLine_append, if_pos (by simp)]
    decide
  · left
    rw [List.all_eq_true]
    exact List.takeWhile_eq_self_iff.1 whole

theorem Follows.not_isFresh {owns reaches : Bool}
    (follows : Follows front last (.directive owns reaches) gap)
    (blanks : gap.all isSpaceOrTab = true) :
    ¬(Preceding.directive owns reaches).isFresh gap = true := by
  intro fresh
  rcases follows.isFresh_iff.1 fresh with begins | mem
  · have := follows.nothing.2 begins
    simp at this
  · have := List.all_eq_true.1 blanks _ mem
    simp [show isSpaceOrTab (ofChar '\n') = false by decide] at this

/-- A directive owns its line when it is alone there, or follows the cut of one that does. -/
theorem Follows.ownsLine_eq (follows : Follows front last pre gap) :
    (Text.isBlank (lastLine (front ++ gap)) || (last.map fun cut =>
      decide (cut.start ≤ front.length + gap.length - (lastLine (front ++ gap)).length)
        && cut.stop == front.length + gap.length).getD false) = pre.ownsLine gap := by
  unfold Preceding.ownsLine
  rw [follows.isAlone_eq, Bool.eq_iff_iff, Bool.or_eq_true, Bool.or_eq_true]
  constructor
  · rintro (alone | found)
    · exact .inl alone
    · have adjoins :
          (last.map fun cut => cut.stop == front.length + gap.length).getD false = true := by
        cases last with
        | none => simp at found
        | some cut =>
          simp only [Option.map_some, Option.getD_some, Bool.and_eq_true] at found ⊢
          exact found.2
      obtain ⟨⟨owns, reaches, rfl⟩, whole⟩ := follows.adjoins_iff.1 adjoins
      obtain ⟨cut, rfl, stop, reach⟩ := follows.cut
      rcases all_of_taken whole with blanks | ⟨mem, empty⟩
      · right
        rw [follows.lastLine_eq, if_neg (follows.not_isFresh blanks)] at found
        simp only [Option.map_some, Option.getD_some, Bool.and_eq_true, decide_eq_true_eq,
          List.length_append] at found
        simp only [blanks, Bool.and_true]
        exact reach.1 (by omega)
      · left
        rw [Preceding.isAlone, follows.isFresh_iff.2 (.inr mem), empty]
        rfl
  · rintro (alone | found)
    · exact .inl alone
    · right
      cases pre with
      | nothing => simp at found
      | item => simp at found
      | directive owns reaches =>
        simp only [Bool.and_eq_true] at found
        obtain ⟨cut, rfl, stop, reach⟩ := follows.cut
        have reach := reach.2 found.1
        rw [taken_of_all found.2] at stop
        rw [follows.lastLine_eq, if_neg (follows.not_isFresh found.2)]
        simp only [Option.map_some, Option.getD_some, stop, beq_self_eq_true, Bool.and_true,
          decide_eq_true_eq, List.length_append]
        omega

variable {code behind after : Text}

theorem head_not_spaceOrTab (visible : ∀ c, after.head? = some c → c.isBlank = false) :
    ∀ c, after.head? = some c → c.isSpaceOrTab = false ∧ c ≠ ofChar '\n' := by
  intro c head
  have visible := visible c head
  have other (d : CodePoint) (blank : d.isBlank = true) : c ≠ d := by
    rintro rfl
    simp [blank] at visible
  refine ⟨?_, other _ (by decide)⟩
  simp [isSpaceOrTab, other _ (show (ofChar ' ').isBlank = true by decide),
    other _ (show (ofChar '\t').isBlank = true by decide)]

theorem takeWhile_gap (visible : ∀ c, after.head? = some c → c.isBlank = false) :
    (behind ++ after).takeWhile isSpaceOrTab = behind.takeWhile isSpaceOrTab ∧
      (behind ++ after).drop (behind.takeWhile isSpaceOrTab).length
        = behind.dropWhile isSpaceOrTab ++ after := by
  have split := List.takeWhile_append_dropWhile (p := isSpaceOrTab) (l := behind)
  constructor
  · rw [List.takeWhile_append]
    split
    · rename_i whole
      have stop : after.takeWhile isSpaceOrTab = [] := by
        cases after with
        | nil => rfl
        | cons c after =>
          rw [List.takeWhile_cons_of_neg]
          simp [(head_not_spaceOrTab visible c rfl).1]
      rw [stop, List.append_nil, (List.takeWhile_prefix _).eq_of_length whole]
    · rfl
  · conv => lhs; arg 2; rw [← split, List.append_assoc]
    exact List.drop_left

theorem taken_length_of_break {owns reaches : Bool} (own : owns = true)
    (line : (gap.dropWhile isSpaceOrTab).head? = some (ofChar '\n')) :
    ((Preceding.directive owns reaches).taken gap).length
      = (gap.takeWhile isSpaceOrTab).length + 1 := by
  simp [Preceding.taken, own, line]

theorem taken_length_of_not {owns reaches : Bool}
    (line : ¬(owns = true ∧ (gap.dropWhile isSpaceOrTab).head? = some (ofChar '\n'))) :
    ((Preceding.directive owns reaches).taken gap).length
      = (gap.takeWhile isSpaceOrTab).length := by
  rw [Preceding.taken, if_neg]
  simpa using line

/-- What is cut out for a directive: its own part of the gap before it, itself, and what its cut
takes of the gap behind it. -/
theorem directiveSpan_eq (reaches : Bool) (follows : Follows front last pre gap)
    (visible : ∀ c, after.head? = some c → c.isBlank = false)
    (whole : code = front ++ (gap ++ (text ++ (behind ++ after)))) :
    directiveSpan code last (front.length + gap.length) (front.length + gap.length + text.length)
      = .ok ⟨front.length + gap.length - (if pre.isAlone gap then gap.lastLine else []).length,
        front.length + gap.length + text.length
          + ((Preceding.directive (pre.ownsLine gap) reaches).taken behind).length⟩ := by
  have start : code.lineStart (front.length + gap.length)
      = front.length + gap.length - (lastLine (front ++ gap)).length := by
    have := lineStart_eq (front ++ gap) (text ++ (behind ++ after))
    rw [List.length_append] at this
    rwa [whole, ← List.append_assoc]
  have line : code.slice (front.length + gap.length - (lastLine (front ++ gap)).length)
      (front.length + gap.length) = lastLine (front ++ gap) := by
    have := slice_lineStart (front ++ gap) (text ++ (behind ++ after))
    rw [List.length_append] at this
    rwa [whole, ← List.append_assoc]
  obtain ⟨blanks, dropped⟩ := @takeWhile_gap behind _ visible
  have atStop : code.drop (front.length + gap.length + text.length) = behind ++ after := by
    rw [whole, ← List.append_assoc, ← List.append_assoc]
    exact List.drop_left' (by simp [Nat.add_assoc])
  have rest : code.drop (front.length + gap.length + text.length
      + (behind.takeWhile isSpaceOrTab).length) = behind.dropWhile isSpaceOrTab ++ after := by
    rw [← List.drop_drop, atStop, dropped]
  have owns := follows.ownsLine_eq
  have adjoins : (last.map fun cut => cut.stop == front.length + gap.length).getD false = true →
      pre.isAlone gap = true → gap.lastLine = [] := by
    intro found alone
    obtain ⟨⟨owns, reaches, rfl⟩, whole⟩ := follows.adjoins_iff.1 found
    rcases all_of_taken whole with blanks | ⟨_, empty⟩
    · simp only [Preceding.isAlone, Bool.and_eq_true] at alone
      exact absurd alone.1 (follows.not_isFresh blanks)
    · exact empty
  rw [directiveSpan]
  simp only [start, line, owns, atStop, blanksLength, blanks, rest]
  by_cases own : pre.ownsLine gap = true
  · have begin_ : (if (last.map fun cut => cut.stop == front.length + gap.length).getD false = true
        then front.length + gap.length
        else front.length + gap.length - (lastLine (front ++ gap)).length)
        = front.length + gap.length - (if pre.isAlone gap then gap.lastLine else []).length := by
      by_cases alone : pre.isAlone gap = true
      · rw [if_pos alone]
        split
        · rename_i found
          rw [adjoins found alone]
          rfl
        · simp only [Preceding.isAlone, Bool.and_eq_true] at alone
          rw [follows.lastLine_eq, if_pos alone.1]
      · rw [if_neg alone, if_pos]
        · rfl
        · have reached := owns.trans own
          rw [follows.isAlone_eq, Bool.or_eq_true] at reached
          have reached := reached.resolve_left alone
          cases last with
          | none => simp at reached
          | some cut =>
            simp only [Option.map_some, Option.getD_some, Bool.and_eq_true] at reached ⊢
            exact reached.2
    rw [if_pos own, begin_, own]
    cases tail : behind.dropWhile isSpaceOrTab with
    | nil =>
      simp only [List.nil_append]
      rw [taken_length_of_not (by simp [tail])]
      cases after with
      | nil =>
        simp only
        rw [if_pos]
        rw [tail, List.append_nil, List.drop_eq_nil_iff] at rest
        have all : behind.takeWhile isSpaceOrTab = behind := by
          have := List.takeWhile_append_dropWhile (p := isSpaceOrTab) (l := behind)
          rwa [tail, List.append_nil] at this
        rw [whole, all]
        simp only [List.length_append, List.length_nil]
        omega
      | cons c after =>
        simp only [if_neg (head_not_spaceOrTab visible c rfl).2]
    | cons c later =>
      simp only [List.cons_append]
      by_cases isBreak : c = ofChar '\n'
      · rw [if_pos isBreak, taken_length_of_break rfl (by simp [tail, isBreak])]
        rfl
      · rw [if_neg isBreak, taken_length_of_not (by simp [tail, isBreak])]
  · have alone : ¬pre.isAlone gap = true := by
      intro alone
      simp [Preceding.ownsLine, alone] at own
    rw [if_neg own, if_neg alone, taken_length_of_not fun line => own line.1]
    rfl

/-- Where a type begins: with its own part of the gap before it. -/
theorem typeStart_eq {h : Header} (follows : Follows front last pre gap) (more : text ≠ [])
    (whole : code = front ++ (gap ++ (text ++ after))) :
    typeStart code (front.length + gap.length) front.length
      = .ok (front.length + gap.length - (pre.own (.type h) gap).length) := by
  have start : code.lineStart (front.length + gap.length)
      = front.length + gap.length - (lastLine (front ++ gap)).length := by
    have := lineStart_eq (front ++ gap) (text ++ after)
    rw [List.length_append] at this
    rwa [whole, ← List.append_assoc]
  have between : code.slice front.length (front.length + gap.length) = gap := by
    rw [whole, Text.slice, ← List.append_assoc, List.take_left' (by simp), List.drop_left]
  have beyond : front.length + gap.length < code.length := by
    have : 0 < text.length := List.length_pos_iff.2 more
    rw [whole]
    simp only [List.length_append]
    omega
  rw [typeStart]
  simp only [start, between, Preceding.own, follows.lastLine_eq]
  by_cases fresh : pre.isFresh gap = true
  · have := Text.lastLine_length_le gap
    rw [if_pos fresh, if_pos (by omega), if_pos fresh]
  · have more : front ≠ [] := fun begins => fresh (follows.isFresh_iff.2 (.inl begins))
    obtain ⟨c, ends⟩ := Option.isSome_iff_exists.1 (List.getLast?_isSome.2 more)
    have mem := mem_lastLine ends (isInk_ne_break (follows.ended c ends))
    have nonempty : 0 < front.lastLine.length := List.length_pos_of_mem mem
    have bound := Text.lastLine_length_le front
    have split := congrArg List.length
      (List.takeWhile_append_dropWhile (p := isSpaceOrTab) (l := gap))
    rw [List.length_append] at split
    rw [if_neg fresh, if_neg (by rw [List.length_append]; omega), blanksLength, if_neg (by omega),
      if_neg fresh]
    congr 1
    omega

theorem Follows.item (follows : Follows front last pre gap) (more : text ≠ [])
    (ended : ∀ c, text.getLast? = some c → c.isInk = true) :
    Follows (front ++ (gap ++ text)) last .item behind where
  nothing := by simp [more]
  ended := by
    intro c ends
    rw [← List.append_assoc, List.getLast?_append_of_ne_nil _ more] at ends
    exact ended c ends
  cut := by
    intro cut found
    have := follows.cut
    have positive : 0 < text.length := List.length_pos_iff.2 more
    simp only [List.length_append]
    cases pre with
    | nothing =>
      have := this cut found
      omega
    | item =>
      have := this cut found
      omega
    | directive owns reaches =>
      obtain ⟨other, same, stop, -⟩ := this
      obtain rfl : other = cut := by simpa [same] using found
      have := (taken_begins (.directive owns reaches) gap).length_le
      omega

theorem Follows.directive (follows : Follows front last pre gap) (more : text ≠ [])
    (ended : ∀ c, text.getLast? = some c → c.isInk = true) :
    Follows (front ++ (gap ++ text))
      (some ⟨front.length + gap.length - (if pre.isAlone gap then gap.lastLine else []).length,
        front.length + gap.length + text.length + ((Preceding.directive (pre.ownsLine gap)
          (pre.isAlone gap || text.contains '\n')).taken behind).length⟩)
      (.directive (pre.ownsLine gap) (pre.isAlone gap || text.contains '\n')) behind where
  nothing := by simp [more]
  ended := by
    intro c ends
    rw [← List.append_assoc, List.getLast?_append_of_ne_nil _ more] at ends
    exact ended c ends
  cut := by
    refine ⟨_, rfl, by simp [Nat.add_assoc], ?_⟩
    have bound := Text.lastLine_length_le (front ++ gap)
    rw [List.length_append] at bound
    simp only [Bool.or_eq_true, List.contains_iff_mem, List.length_append]
    rw [← List.append_assoc, lastLine_append]
    by_cases mem : ofChar '\n' ∈ text
    · have := Text.lastLine_length_le text
      rw [if_pos mem]
      simp only [mem, or_true, iff_true]
      omega
    · rw [if_neg mem, List.length_append]
      simp only [mem, or_false]
      by_cases alone : pre.isAlone gap = true
      · have fresh := alone
        simp only [Preceding.isAlone, Bool.and_eq_true] at fresh
        rw [if_pos alone, follows.lastLine_eq, if_pos fresh.1]
        simp only [alone, iff_true]
        omega
      · rw [if_neg alone]
        simp only [alone, List.length_nil]
        have nonempty : lastLine (front ++ gap) ≠ [] := by
          intro empty
          have := follows.isAlone_eq
          rw [empty] at this
          exact alone this.symm
        have : 0 < (lastLine (front ++ gap)).length := List.length_pos_iff.2 nonempty
        simp only [iff_false, Bool.false_eq_true]
        omega

end

namespace Block

def entry (layout : Layout) (start : Nat) (b : Block) : CompilationUnit.Entry :=
  let cut : Span := ⟨start + b.kept.length, start + b.text.length⟩
  match b.role with
  | .package name => .package name cut
  | .importDecl i => .importDecl i cut
  | .type h =>
    .type ⟨h, start + b.kept.length, h.visibilityToken.map fun t => (layout.offset? t).getD 0,
      (layout.offset? h.anchor).getD 0⟩
  | .stray => .stray

def entries (layout : Layout) (start : Nat) : List Block → List CompilationUnit.Entry
  | [] => []
  | b :: bs => b.entry layout start :: entries layout (start + b.text.length) bs

end Block

section

variable {ps : List Piece} {s : Text}

theorem regap_append (g : Text) (p : Piece) (ps qs : List Piece) :
    regap g (p :: ps ++ qs) = regap g (p :: ps) ++ qs := rfl

theorem inkText_last (fits : Fits ps s) (more : ps ≠ []) :
    inkText ps ≠ [] ∧ ∀ c, (inkText ps).getLast? = some c → c.isInk = true := by
  rcases List.eq_nil_or_concat ps with rfl | ⟨init, l, rfl⟩
  · exact absurd rfl more
  · rw [List.concat_eq_append] at fits ⊢
    obtain ⟨-, -, lex, -⟩ := fits_append.1 fits
    obtain ⟨front, split⟩ : ∃ front, inkText (init ++ [l]) = front ++ l.lexeme := by
      cases init with
      | nil => exact ⟨[], by simp [inkText, regap, source_cons]⟩
      | cons p init =>
        refine ⟨source (regap [] (p :: init)) ++ l.gap, ?_⟩
        rw [inkText, regap_append, source_append, source_cons l]
        simp
    rw [split, List.getLast?_append_of_ne_nil _ lex.ne_nil]
    exact ⟨by simp [lex.ne_nil], fun c => lex.last⟩

theorem nextGap_split {items : List (List Piece)} {tail : Text}
    (fits : Fits items.flatten tail) (more : ∀ ps ∈ items, ps ≠ []) :
    ∃ after, source items.flatten ++ tail = nextGap tail items ++ after ∧
      ∀ c, after.head? = some c → c.isBlank = false := by
  match items with
  | [] => exact ⟨[], by simp [nextGap], by simp⟩
  | [] :: items => exact absurd rfl (more [] (by simp))
  | (p :: ps) :: items =>
    obtain ⟨c, u, lexeme, visible⟩ := fits.2.1.head
    refine ⟨p.lexeme ++ (source (ps ++ items.flatten) ++ tail), ?_, ?_⟩
    · simp only [List.flatten_cons, List.cons_append, source_cons, nextGap, leadingGap,
        List.append_assoc]
    · intro d head
      obtain rfl : c = d := by simpa [lexeme] using head
      exact visible

end

section

variable {code tail : Text} {before : List Piece} {items : List (List Piece)}

theorem offset_of_mem {ps later : List Piece} {t : Token}
    (placed : Placed code (before ++ (ps ++ later)))
    (mem : t ∈ tokensFrom (positionFrom .start before) ps) :
    offset (.ofText code) t = .ok ((Layout.offset? (.ofText code) t).getD 0) := by
  obtain ⟨xs, ys, split⟩ := List.append_of_mem mem
  obtain ⟨front, back, rfl, rfl, tokens⟩ := tokensFrom_eq_append split
  cases back with
  | nil => simp [tokensFrom] at tokens
  | cons p back =>
    obtain ⟨rfl, -⟩ := List.cons.inj tokens
    have found := placed (before ++ front) p (back ++ later) (by simp)
    have token : tokenAfter (before ++ front) p
        = ⟨p.kind, p.lexeme, (positionFrom (positionFrom .start before) front).passAll p.gap⟩ := by
      rw [tokenAfter, positionFrom_append]
    rw [token] at found
    rw [offset, found]
    rfl

theorem offset_head {p : Piece} {ps later : List Piece}
    (placed : Placed code (before ++ (p :: ps ++ later))) :
    offset (.ofText code) ⟨p.kind, p.lexeme, (positionFrom .start before).passAll p.gap⟩
      = .ok ((source before).length + p.gap.length) := by
  have found := placed before p (ps ++ later) (by simp)
  rw [tokenAfter] at found
  rw [offset, found]

theorem offset_last {l : Piece} {init later : List Piece}
    (placed : Placed code (before ++ (init ++ [l] ++ later))) :
    offset (.ofText code) ⟨l.kind, l.lexeme,
        (positionFrom (positionFrom .start before) init).passAll l.gap⟩
      = .ok ((source before).length + (source (init ++ [l])).length - l.lexeme.length) := by
  have found := placed (before ++ init) l later (by simp)
  rw [tokenAfter, positionFrom_append] at found
  rw [offset, found]
  simp only [source_append, source_cons, source_nil, List.length_append, Except.ok.injEq,
    List.length_nil]
  omega

theorem entriesFrom_cons {layout : Layout} {previousEnd start stop : Nat} {last : Option Span}
    {item : Item} {items : List Item} {first final : Token} {entry : CompilationUnit.Entry}
    {later : List CompilationUnit.Entry}
    (head : item.head? = some first) (ending : item.getLast? = some final)
    (place : offset layout final = .ok start) (ends : stop = start + final.value.length)
    (classified : classify code layout previousEnd stop last first item = .ok entry)
    (rest : entriesFrom code layout stop (entry.cut?.or last) items = .ok later) :
    entriesFrom code layout previousEnd last (item :: items) = .ok (entry :: later) := by
  subst ends
  rw [entriesFrom, head, ending]
  simp only [place, ok_bind, classified, rest]
  rfl

/-- Where a block ends: with the cut behind its item. -/
theorem block_text_length (pre : Preceding) (item : Item) (role : Role) {ps : List Piece}
    (behind : Text) (more : ps ≠ []) :
    (pre.taken (leadingGap ps)).length + (pre.block item role ps behind).text.length
        = (source ps).length + ((pre.after role ps).taken behind).length ∧
      (pre.taken (leadingGap ps)).length + (pre.kept role (leadingGap ps)).length
        = (leadingGap ps).length - (pre.own role (leadingGap ps)).length := by
  have split := congrArg List.length (gap_split pre role (leadingGap ps))
  simp only [List.length_append] at split
  rw [source_eq_inkText ps]
  simp only [Block.text, Preceding.block, source_regap _ more, List.length_append]
  omega

theorem classify_eq {pre : Preceding} {last : Option Span} {p : Piece} {ps : List Piece}
    (whole : code = source before ++ (source (p :: ps ++ items.flatten) ++ tail))
    (fits : Fits (p :: ps ++ items.flatten) tail) (more : ∀ ps ∈ items, ps ≠ [])
    (placed : Placed code (before ++ (p :: ps ++ items.flatten)))
    (follows : Follows (source before) last pre p.gap) :
    classify code (.ofText code) (source before).length
        ((source before).length + (source (p :: ps)).length) last
        ⟨p.kind, p.lexeme, (positionFrom .start before).passAll p.gap⟩
        (tokensFrom (positionFrom .start before) (p :: ps))
      = .ok ((pre.block (tokensFrom (positionFrom .start before) (p :: ps))
          (.ofItem (tokensFrom (positionFrom .start before) (p :: ps))) (p :: ps)
          (nextGap tail items)).entry (.ofText code)
          ((source before).length + (pre.taken p.gap).length)) := by
  obtain ⟨after, behind, visible⟩ := nextGap_split (fits_append.1 fits).2 more
  have item : source (p :: ps) = p.gap ++ inkText (p :: ps) := source_eq_inkText (p :: ps)
  have around : code = source before ++ (p.gap ++ (inkText (p :: ps)
      ++ (nextGap tail items ++ after))) := by
    rw [whole, source_append, item, List.append_assoc, List.append_assoc, behind]
  have first := offset_head placed
  have ink := inkText_last (fits_append.1 fits).1 (List.cons_ne_nil p ps)
  have length : (source before).length + (source (p :: ps)).length
      = (source before).length + p.gap.length + (inkText (p :: ps)).length := by
    rw [item, List.length_append]
    omega
  generalize role : Role.ofItem (tokensFrom (positionFrom .start before) (p :: ps)) = r
  obtain ⟨ends, begins⟩ := block_text_length pre
    (tokensFrom (positionFrom .start before) (p :: ps)) r (nextGap tail items)
      (List.cons_ne_nil p ps)
  have ownBound := (own_ends pre r p.gap).length_le
  rw [show leadingGap (p :: ps) = p.gap from rfl] at ends begins
  have cut (directive : r.isDirective = true)
      (own : pre.own r p.gap = if pre.isAlone p.gap then p.gap.lastLine else []) :
      directiveSpan code last ((source before).length + p.gap.length)
          ((source before).length + (source (p :: ps)).length)
        = .ok ⟨(source before).length + (pre.taken p.gap).length + (pre.kept r p.gap).length,
          (source before).length + (pre.taken p.gap).length
            + (pre.block (tokensFrom (positionFrom .start before) (p :: ps)) r (p :: ps)
              (nextGap tail items)).text.length⟩ := by
    have span := directiveSpan_eq (pre.isAlone p.gap || (inkText (p :: ps)).contains '\n')
      follows visible around
    have next : pre.after r (p :: ps) = .directive (pre.ownsLine p.gap)
        (pre.isAlone p.gap || (inkText (p :: ps)).contains '\n') := by
      rw [Preceding.after, Preceding.next, if_pos directive]
      rfl
    rw [length, span, ← own]
    rw [next] at ends
    congr 2 <;> omega
  rw [classify]
  simp only [first]
  rw [tokensFrom, Role.ofItem] at role
  split
  · rename_i package
    rw [if_pos package] at role
    subst role
    rw [ok_bind, cut rfl rfl]
    rfl
  · rename_i noPackage
    rw [if_neg noPackage] at role
    split
    · rename_i import_
      rw [if_pos import_] at role
      subst role
      rw [ok_bind, cut rfl rfl]
      rfl
    · rename_i noImport
      rw [if_neg noImport] at role
      rw [← tokensFrom] at role
      split
      · rename_i h found
        rw [found] at role
        simp only at role
        subst role
        obtain ⟨head, anchorMem, visibleMem⟩ := Header.ofItem?_mem found
        have firstToken : h.first = ⟨p.kind, p.lexeme,
            (positionFrom .start before).passAll p.gap⟩ := by
          simpa [tokensFrom] using head.symm
        have anchor := offset_of_mem placed anchorMem
        have visibility : h.visibilityToken.mapM (offset (.ofText code))
            = .ok (h.visibilityToken.map fun t => (Layout.offset? (.ofText code) t).getD 0) := by
          cases token : h.visibilityToken with
          | none => rfl
          | some t =>
            have found := offset_of_mem placed (visibleMem t token)
            rw [Option.mapM_some, found]
            rfl
        have start := typeStart_eq (h := h) follows ink.1 around
        rw [locate, visibility, ok_bind, anchor, ok_bind, firstToken, first, ok_bind, start,
          ok_bind, pure_eq_ok, ok_bind, pure_eq_ok]
        simp only [Block.entry, Preceding.block, Except.ok.injEq]
        congr 2
        rw [show leadingGap (p :: ps) = p.gap from rfl]
        omega
      · rename_i none
        rw [none] at role
        subst role
        rfl

theorem after_directive {role : Role} (directive : role.isDirective = true) (pre : Preceding)
    (ps : List Piece) : pre.after role ps = .directive (pre.ownsLine (leadingGap ps))
      (pre.isAlone (leadingGap ps) || (inkText ps).contains '\n') := by
  rw [Preceding.after, Preceding.next, if_pos directive]

theorem after_item {role : Role} (item : role.isDirective = false) (pre : Preceding)
    (ps : List Piece) : pre.after role ps = .item := by
  rw [Preceding.after, Preceding.next, if_neg (by simp [item])]

theorem own_directive {role : Role} (directive : role.isDirective = true) (pre : Preceding)
    (gap : Text) : pre.own role gap = if pre.isAlone gap then gap.lastLine else [] := by
  cases role with
  | package => rfl
  | importDecl => rfl
  | type => simp [Role.isDirective] at directive
  | stray => simp [Role.isDirective] at directive

theorem entry_cut?_directive {role : Role} (directive : role.isDirective = true) (pre : Preceding)
    (item : Item) {ps : List Piece} (more : ps ≠ []) (layout : Layout) (start : Nat)
    (behind : Text) :
    ((pre.block item role ps behind).entry layout (start + (pre.taken (leadingGap ps)).length)).cut?
      = some ⟨start + (leadingGap ps).length
          - (if pre.isAlone (leadingGap ps) then (leadingGap ps).lastLine else []).length,
        start + (leadingGap ps).length + (inkText ps).length
          + ((pre.after role ps).taken behind).length⟩ := by
  obtain ⟨ends, begins⟩ := block_text_length pre item role behind more
  have own := (own_ends pre role (leadingGap ps)).length_le
  have length := congrArg List.length (source_eq_inkText ps)
  rw [List.length_append] at length
  rw [← own_directive directive]
  have cut : ((pre.block item role ps behind).entry layout
      (start + (pre.taken (leadingGap ps)).length)).cut?
      = some ⟨start + (pre.taken (leadingGap ps)).length + (pre.kept role (leadingGap ps)).length,
        start + (pre.taken (leadingGap ps)).length
          + (pre.block item role ps behind).text.length⟩ := by
    cases role with
    | package => rfl
    | importDecl => rfl
    | type => simp [Role.isDirective] at directive
    | stray => simp [Role.isDirective] at directive
  rw [cut]
  congr 2 <;> omega

theorem entry_cut?_item {role : Role} (other : role.isDirective = false) (pre : Preceding)
    (item : Item) (ps : List Piece) (layout : Layout) (start : Nat) (behind : Text) :
    ((pre.block item role ps behind).entry layout start).cut? = none := by
  cases role with
  | package => simp [Role.isDirective] at other
  | importDecl => simp [Role.isDirective] at other
  | type => rfl
  | stray => rfl

theorem Follows.after {pre : Preceding} {last : Option Span} {ps : List Piece} {front s : Text}
    (layout : Layout) (follows : Follows front last pre (leadingGap ps)) (fits : Fits ps s)
    (more : ps ≠ []) (item : Item) (role : Role) (behind : Text) :
    Follows (front ++ source ps)
      (((pre.block item role ps behind).entry layout
        (front.length + (pre.taken (leadingGap ps)).length)).cut?.or last)
      (pre.after role ps) behind := by
  obtain ⟨nonempty, ended⟩ := inkText_last fits more
  rw [source_eq_inkText ps]
  cases directive : role.isDirective with
  | true =>
    rw [entry_cut?_directive directive pre item more, after_directive directive]
    exact follows.directive nonempty ended
  | false =>
    rw [entry_cut?_item directive, after_item directive]
    exact follows.item nonempty ended

/-- The entries of a text are those of its blocks. -/
theorem entriesFrom_eq (before : List Piece) {pre : Preceding} {last : Option Span}
    (whole : code = source before ++ (source items.flatten ++ tail))
    (fits : Fits items.flatten tail) (more : ∀ ps ∈ items, ps ≠ [])
    (placed : Placed code (before ++ items.flatten))
    (follows : Follows (source before) last pre (nextGap tail items)) :
    entriesFrom code (.ofText code) (source before).length last
        (itemsFrom (positionFrom .start before) items)
      = .ok (Block.entries (.ofText code)
          ((source before).length + (pre.taken (nextGap tail items)).length)
          (blocksFrom pre (positionFrom .start before) tail items)) := by
  induction items generalizing before pre last with
  | nil => rfl
  | cons ps items ih =>
    rw [List.forall_mem_cons] at more
    rw [List.flatten_cons] at whole fits placed
    obtain ⟨fitsItem, fitsLater⟩ := fits_append.1 fits
    have after := follows.after (.ofText code) fitsItem more.1
      (tokensFrom (positionFrom .start before) ps)
      (.ofItem (tokensFrom (positionFrom .start before) ps)) (nextGap tail items)
    have later := ih (before ++ ps) (by rw [whole]; simp [source_append]) fitsLater more.2
      (by rwa [List.append_assoc]) (by rw [source_append]; exact after)
    rw [source_append, List.length_append, positionFrom_append] at later
    have ends := (block_text_length pre (tokensFrom (positionFrom .start before) ps)
      (.ofItem (tokensFrom (positionFrom .start before) ps))
      (nextGap tail items) more.1).1
    rcases List.eq_nil_or_concat ps with rfl | ⟨init, l, split⟩
    · exact absurd rfl more.1
    · rw [List.concat_eq_append] at split
      have place := @offset_last _ _ l init _ (split ▸ placed)
      have long : l.lexeme.length ≤ (source ps).length := by
        rw [split, source_append, source_cons]
        simp only [List.length_append]
        omega
      obtain ⟨p, rest, rfl⟩ := List.exists_cons_of_ne_nil more.1
      rw [itemsFrom, blocksFrom, Block.entries,
        show nextGap tail ((p :: rest) :: items) = leadingGap (p :: rest) from rfl]
      refine entriesFrom_cons rfl ?_ place ?_ (classify_eq whole fits more.2 placed follows) ?_
      · rw [split, tokensFrom_append]
        simp [tokensFrom]
      · rw [← split]
        simp only
        omega
      · rw [later]
        congr 2
        omega

end

end JavaUnits
