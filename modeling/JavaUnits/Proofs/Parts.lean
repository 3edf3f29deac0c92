import JavaUnits.Proofs.Parse
import JavaUnits.Proofs.Render
import Mathlib.Data.List.Forall2

/-!
The types of a text with their parts of it. A type owns its item and what is left behind the item,
up to the next type, when the directives are cut out; an edit of its header changes the item alone.
-/

namespace JavaUnits

open CodePoint Scan Span CompilationUnit

namespace Role

def isType : Role → Bool
  | type _ => true
  | _ => false

theorem exists_of_isType {role : Role} (isType : role.isType = true) : ∃ h, role = .type h := by
  cases role with
  | type h => exact ⟨h, rfl⟩
  | _ => cases isType

def import? : Role → Option Import
  | importDecl i => some i
  | _ => none

end Role

namespace Block

/-- What the blocks of every text are. -/
structure IsSound (b : Block) : Prop where
  source : source b.pieces ≠ []
  taken : b.role.isDirective = false → b.taken = []
  role : b.role = .ofItem b.item
  tokens : b.pieces.map Piece.token = b.item.map Token.bare

/-- A block's stretches when its item is changed by `item`. -/
def stretches (item : List Stretch) (b : Block) : List Stretch :=
  .stays b.kept ::
    if b.role.isDirective then [.cut (source b.pieces ++ b.taken)] else item

def unchanged (b : Block) : List Stretch :=
  [.stays (source b.pieces)]

/-- The blocks' stretches when nothing but the directives goes. -/
def plainStretches (bs : List Block) : List Stretch :=
  bs.flatMap fun b => b.stretches b.unchanged

end Block

/-- A change of an item's text that cuts nothing out. -/
structure Amends (item : List Stretch) (s : Text) : Prop where
  before : Stretch.before item = s
  sound : Stretch.Sound item
  cuts : ∀ start, Stretch.cuts start item = []

namespace Block

theorem amends_unchanged (b : Block) : Amends b.unchanged (source b.pieces) where
  before := by simp [unchanged, Stretch.before, Stretch.old]
  sound := by simp [unchanged, Stretch.Sound, Stretch.changes]
  cuts := fun _ => rfl

section

variable {b : Block} {item : List Stretch}

theorem before_stretches (sound : b.IsSound) (amends : Amends item (source b.pieces)) :
    Stretch.before (b.stretches item) = b.text := by
  rw [stretches, Stretch.before_cons, text]
  cases directive : b.role.isDirective with
  | true => simp [Stretch.before, Stretch.old]
  | false => simp [Stretch.old, amends.before, sound.taken directive]

theorem after_stretches (b : Block) (item : List Stretch) :
    Stretch.after (b.stretches item)
      = b.kept ++ if b.role.isDirective then [] else Stretch.after item := by
  rw [stretches, Stretch.after_cons]
  split <;> simp [Stretch.after, Stretch.new]

theorem sound_stretches (sound : b.IsSound) (amends : Amends item (source b.pieces)) :
    Stretch.Sound (b.stretches item) := by
  rw [stretches]
  intro x mem changes
  rw [List.mem_cons] at mem
  rcases mem with rfl | mem
  · simp [Stretch.changes] at changes
  · split at mem
    · rw [List.mem_singleton] at mem
      subst mem
      simp [Stretch.old, sound.source]
    · exact amends.sound x mem changes

theorem cuts_stretches (layout : Layout) (start : Nat) (amends : Amends item (source b.pieces)) :
    Stretch.cuts start (b.stretches item) = (b.entry layout start).cut?.toList := by
  rw [stretches, Stretch.cuts_stays, entry, text]
  cases b.role with
  | package => simp [Role.isDirective, Stretch.cuts, CompilationUnit.Entry.cut?, Nat.add_assoc]
  | importDecl => simp [Role.isDirective, Stretch.cuts, CompilationUnit.Entry.cut?, Nat.add_assoc]
  | type => simp [Role.isDirective, CompilationUnit.Entry.cut?, amends.cuts]
  | stray => simp [Role.isDirective, CompilationUnit.Entry.cut?, amends.cuts]

end

/-- What the blocks after a type leave it, up to the next type; `rest` is left of the tail. -/
def ownedText (rest : Text) : List Block → Text
  | [] => rest
  | b :: bs =>
    if b.role.isType then b.kept
    else b.kept ++ (if b.role.isDirective then [] else source b.pieces) ++ ownedText rest bs

def ownedStretches (rest : Text) : List Block → List Stretch
  | [] => [.stays rest]
  | b :: bs =>
    if b.role.isType then [.stays b.kept] else b.stretches b.unchanged ++ ownedStretches rest bs

/-- What comes from the next type on. -/
def laterStretches (rest : Text) : List Block → List Stretch
  | [] => []
  | b :: bs =>
    if b.role.isType then b.unchanged ++ plainStretches bs ++ [.stays rest]
    else laterStretches rest bs

theorem sound_append {xs ys : List Stretch} (front : Stretch.Sound xs) (back : Stretch.Sound ys) :
    Stretch.Sound (xs ++ ys) := by
  intro x mem
  rw [List.mem_append] at mem
  exact mem.elim (front x) (back x)

section

variable (rest : Text) {bs : List Block}

theorem before_plainStretches (sound : ∀ b ∈ bs, b.IsSound) :
    Stretch.before (plainStretches bs) = bs.flatMap text := by
  induction bs with
  | nil => rfl
  | cons b bs ih =>
    rw [List.forall_mem_cons] at sound
    rw [plainStretches, List.flatMap_cons, Stretch.before_append,
      before_stretches sound.1 b.amends_unchanged, List.flatMap_cons]
    exact congrArg _ (ih sound.2)

theorem sound_plainStretches (sound : ∀ b ∈ bs, b.IsSound) :
    Stretch.Sound (plainStretches bs) := by
  intro x mem
  obtain ⟨b, inside, mem⟩ := List.mem_flatMap.1 mem
  exact sound_stretches (sound b inside) b.amends_unchanged x mem

theorem cuts_plainStretches (sound : ∀ b ∈ bs, b.IsSound) (layout : Layout) (start : Nat) :
    Stretch.cuts start (plainStretches bs)
      = (entries layout start bs).filterMap CompilationUnit.Entry.cut? := by
  induction bs generalizing start with
  | nil => rfl
  | cons b bs ih =>
    rw [List.forall_mem_cons] at sound
    have later := ih sound.2 (start + b.text.length)
    rw [plainStretches, List.flatMap_cons, Stretch.cuts_append,
      cuts_stretches layout start b.amends_unchanged,
      before_stretches sound.1 b.amends_unchanged]
    rw [plainStretches] at later
    rw [later, entries, List.filterMap_cons]
    cases (b.entry layout start).cut? <;> rfl

theorem edits_unchanged (b : Block) (start : Nat) :
    Stretch.edits start (b.stretches b.unchanged) = [] := by
  rw [stretches, Stretch.edits_stays]
  split <;> rfl

theorem owned_later (sound : ∀ b ∈ bs, b.IsSound) (layout : Layout) (start : Nat) :
    Stretch.cuts start (ownedStretches rest bs ++ laterStretches rest bs)
        = (entries layout start bs).filterMap CompilationUnit.Entry.cut? ∧
      Stretch.before (ownedStretches rest bs ++ laterStretches rest bs)
        = bs.flatMap text ++ rest ∧
      Stretch.Sound (ownedStretches rest bs ++ laterStretches rest bs) := by
  induction bs generalizing start with
  | nil => simp [ownedStretches, laterStretches, Stretch.cuts, Stretch.before, Stretch.old, entries,
      Stretch.Sound, Stretch.changes]
  | cons b bs ih =>
    rw [List.forall_mem_cons] at sound
    obtain ⟨cuts, before, later⟩ := ih sound.2 (start + b.text.length)
    rw [ownedStretches, laterStretches]
    by_cases isType : b.role.isType = true
    · have item : b.role.isDirective = false := by
        cases role : b.role <;> simp_all [Role.isType, Role.isDirective]
      have whole : [Stretch.stays b.kept] ++ (b.unchanged ++ plainStretches bs ++ [.stays rest])
          = plainStretches (b :: bs) ++ [.stays rest] := by
        simp [plainStretches, stretches, item]
      have all : ∀ b' ∈ b :: bs, b'.IsSound := List.forall_mem_cons.2 sound
      rw [if_pos isType, if_pos isType, whole]
      refine ⟨?_, ?_, ?_⟩
      · rw [Stretch.cuts_append, cuts_plainStretches all layout]
        simp [Stretch.cuts]
      · rw [Stretch.before_append, before_plainStretches all]
        simp [Stretch.before, Stretch.old]
      · apply sound_append (sound_plainStretches all)
        simp [Stretch.Sound, Stretch.changes]
    · rw [if_neg isType, if_neg isType, List.append_assoc]
      refine ⟨?_, ?_, sound_append (sound_stretches sound.1 b.amends_unchanged) later⟩
      · rw [Stretch.cuts_append, cuts_stretches layout start b.amends_unchanged,
          before_stretches sound.1 b.amends_unchanged, cuts, entries, List.filterMap_cons]
        cases (b.entry layout start).cut? <;> rfl
      · rw [Stretch.before_append, before_stretches sound.1 b.amends_unchanged, before]
        simp

theorem after_ownedStretches (rest : Text) (bs : List Block) :
    Stretch.after (ownedStretches rest bs) = ownedText rest bs := by
  induction bs with
  | nil => simp [ownedStretches, ownedText, Stretch.after, Stretch.new]
  | cons b bs ih =>
    rw [ownedStretches, ownedText]
    split
    · simp [Stretch.after, Stretch.new]
    · rw [Stretch.after_append, after_stretches, ih]
      simp [unchanged, Stretch.after, Stretch.new]

theorem edits_ownedStretches (rest : Text) (bs : List Block) (start : Nat) :
    Stretch.edits start (ownedStretches rest bs) = [] := by
  induction bs generalizing start with
  | nil => rfl
  | cons b bs ih =>
    rw [ownedStretches]
    split
    · rfl
    · rw [Stretch.edits_append, edits_unchanged, ih]
      rfl

theorem type?_eq_none {b : Block} (other : b.role.isType = false) (layout : Layout) (start : Nat) :
    (b.entry layout start).type? = none := by
  rw [entry]
  cases role : b.role <;> simp_all [Role.isType, CompilationUnit.Entry.type?]

theorem nextStart (sound : ∀ b ∈ bs, b.IsSound) (layout : Layout) (start : Nat) :
    (((entries layout start bs).filterMap CompilationUnit.Entry.type?).head?.map Located.start).getD
        (start + (bs.flatMap text ++ rest).length)
      = start + (Stretch.before (ownedStretches rest bs)).length := by
  induction bs generalizing start with
  | nil => simp [entries, ownedStretches, Stretch.before, Stretch.old]
  | cons b bs ih =>
    rw [List.forall_mem_cons] at sound
    have ih := ih sound.2 (start + b.text.length)
    rw [entries, List.filterMap_cons, ownedStretches]
    cases type : b.role.isType with
    | true =>
      obtain ⟨h, role⟩ := Role.exists_of_isType type
      simp [entry, role, CompilationUnit.Entry.type?, Stretch.before, Stretch.old]
    | false =>
      rw [type?_eq_none type, if_neg Bool.false_ne_true, Stretch.before_append,
        before_stretches sound.1 b.amends_unchanged]
      simp only [List.flatMap_cons, List.length_append, ← Nat.add_assoc] at ih ⊢
      exact ih

end

end Block

/-- A type with its part of the text. -/
structure Part where
  item : Item
  header : Header
  /-- The item, with its own part of the gap before it. -/
  pieces : List Piece
  /-- What is left behind the item. -/
  trailing : Text
  /-- The strays behind the item. -/
  strays : List Item

namespace Block

def strays : List Block → List Item
  | [] => []
  | b :: bs =>
    match b.role with
    | .type _ => []
    | .stray => b.item :: strays bs
    | _ => strays bs

end Block

/-- The parts of the types among the blocks. -/
def partsFrom (rest : Text) : List Block → List Part
  | [] => []
  | b :: bs =>
    match b.role with
    | .type h =>
      ⟨b.item, h, b.pieces, Block.ownedText rest bs, Block.strays bs⟩ :: partsFrom rest bs
    | _ => partsFrom rest bs

/-- Whether each token of an item is found where its piece stands, when the pieces begin at
`start`. -/
def Spots (layout : Layout) (start : Nat) (item : Item) (pieces : List Piece) : Prop :=
  ∀ front t back, item = front ++ t :: back →
    ∃ ps p qs, pieces = ps ++ p :: qs ∧ ps.map Piece.token = front.map Token.bare ∧
      p.token = t.bare ∧ qs.map Piece.token = back.map Token.bare ∧
      layout.offset? t = some (start + (source ps).length + p.gap.length)

/-- What a type of a unit has to do with its part of the text. -/
structure Shows (u : CompilationUnit) (t : TypeDecl) (part : Part) : Prop where
  header : t.header = part.header
  found : Role.ofItem part.item = .type part.header
  stands : ∃ front back, u.code = front ++ (source part.pieces ++ back) ∧
    front.length = t.span.start
  spots : Spots (.ofText u.code) t.span.start part.item part.pieces
  visibilityOffset : t.visibilityOffset = part.header.visibilityToken.map fun token =>
    (Layout.offset? (.ofText u.code) token).getD 0
  anchorOffset : t.anchorOffset = (Layout.offset? (.ofText u.code) part.header.anchor).getD 0
  text : ∀ item, Amends item (source part.pieces) →
    u.text t.span (Stretch.edits t.span.start item) = Stretch.after item ++ part.trailing

namespace Block

theorem entries_append (layout : Layout) (start : Nat) (xs ys : List Block) :
    entries layout start (xs ++ ys)
      = entries layout start xs ++ entries layout (start + (xs.flatMap text).length) ys := by
  induction xs generalizing start with
  | nil => simp [entries]
  | cons x xs ih => simp [entries, ih, Nat.add_assoc]

theorem partsFrom_of_isType_false {b : Block} (other : b.role.isType = false) (rest : Text)
    (bs : List Block) : partsFrom rest (b :: bs) = partsFrom rest bs := by
  rw [partsFrom]
  cases role : b.role <;> simp_all [Role.isType]

theorem render_owned {xs bs : List Block} {b : Block} (rest : Text) (item : List Stretch)
    (sound : ∀ b' ∈ xs ++ b :: bs, b'.IsSound) (isType : b.role.isType = true)
    (amends : Amends item (source b.pieces)) {code : Text} (layout : Layout)
    (whole : code = (xs ++ b :: bs).flatMap text ++ rest) :
    Span.render code ⟨(xs.flatMap text).length + b.kept.length,
        (((entries layout ((xs.flatMap text).length + b.text.length) bs).filterMap
          CompilationUnit.Entry.type?).head?.map Located.start).getD code.length⟩
        ((entries layout 0 (xs ++ b :: bs)).filterMap CompilationUnit.Entry.cut?)
        (Stretch.edits ((xs.flatMap text).length + b.kept.length) item)
      = Stretch.after item ++ ownedText rest bs := by
  have soundXs : ∀ b' ∈ xs, b'.IsSound := fun b' mem => sound b' (by simp [mem])
  have soundB : b.IsSound := sound b (by simp)
  have soundBs : ∀ b' ∈ bs, b'.IsSound := fun b' mem => sound b' (by simp [mem])
  have directive : b.role.isDirective = false := by
    cases role : b.role <;> simp_all [Role.isType, Role.isDirective]
  obtain ⟨cuts, before, later⟩ := owned_later rest soundBs layout
    ((xs.flatMap text).length + b.text.length)
  have textB : b.text = b.kept ++ source b.pieces := by
    rw [text, soundB.taken directive, List.append_nil]
  have front : Stretch.before (plainStretches xs ++ [.stays b.kept])
      = xs.flatMap text ++ b.kept := by
    rw [Stretch.before_append, before_plainStretches soundXs]
    simp [Stretch.before, Stretch.old]
  have rendered := render_stretches (plainStretches xs ++ [.stays b.kept])
    (item ++ ownedStretches rest bs) (laterStretches rest bs) (by
      rw [List.append_assoc item]
      apply sound_append (sound_append (sound_plainStretches soundXs) ?_)
        (sound_append amends.sound later)
      simp [Stretch.Sound, Stretch.changes])
  have codeEq : Stretch.before (plainStretches xs ++ [.stays b.kept] ++
      (item ++ ownedStretches rest bs ++ laterStretches rest bs)) = code := by
    rw [Stretch.before_append, front, List.append_assoc item, Stretch.before_append,
      amends.before, before, whole]
    simp [textB]
  have cutsEq : Stretch.cuts 0 (plainStretches xs ++ [.stays b.kept] ++
      (item ++ ownedStretches rest bs ++ laterStretches rest bs))
      = (entries layout 0 (xs ++ b :: bs)).filterMap CompilationUnit.Entry.cut? := by
    have none : (b.entry layout (xs.flatMap text).length).cut? = none := by
      rw [entry]
      cases role : b.role <;> simp_all [Role.isType, CompilationUnit.Entry.cut?]
    have kept (start : Nat) : Stretch.cuts start [.stays b.kept] = [] := rfl
    rw [List.append_assoc item, Stretch.cuts_append, Stretch.cuts_append, Stretch.cuts_append,
      cuts_plainStretches soundXs layout, amends.cuts, front, amends.before, entries_append,
      List.filterMap_append, entries, List.filterMap_cons, kept]
    simp only [Nat.zero_add, none, List.nil_append, List.append_nil]
    rw [← cuts, textB, List.length_append, List.length_append, Nat.add_assoc]
  have stop := nextStart rest soundBs layout ((xs.flatMap text).length + b.text.length)
  have length : code.length
      = (xs.flatMap text).length + b.text.length + (bs.flatMap text ++ rest).length := by
    rw [whole]
    simp only [List.flatMap_append, List.flatMap_cons, List.length_append]
    omega
  rw [codeEq, cutsEq, front, Stretch.edits_append, edits_ownedStretches, List.append_nil,
    Stretch.after_append, after_ownedStretches, Stretch.before_append, amends.before] at rendered
  rw [length, stop, ← rendered]
  congr 2
  · rw [List.length_append]
  · rw [textB]
    simp only [List.length_append]
    omega
  · rw [List.length_append]

/-- The types of a unit own the parts that the blocks give them. -/
theorem shows_typesOf {code rest : Text} {all ys : List Block} (xs : List Block)
    (sound : ∀ b ∈ all, b.IsSound)
    (spots : ∀ xs b ys, all = xs ++ b :: ys →
      Spots (.ofText code) ((xs.flatMap text).length + b.kept.length) b.item b.pieces)
    (whole : code = all.flatMap text ++ rest) (split : all = xs ++ ys) :
    List.Forall₂ (Shows (ofBlocks code all))
      (typesOf code ((entries (.ofText code) 0 all).filterMap CompilationUnit.Entry.cut?)
        ((entries (.ofText code) (xs.flatMap text).length ys).filterMap
          CompilationUnit.Entry.type?))
      (partsFrom rest ys) := by
  induction ys generalizing xs with
  | nil => exact .nil
  | cons b ys ih =>
    have later := ih (xs ++ [b]) (by rw [split, List.append_assoc]; rfl)
    have place : ((xs ++ [b]).flatMap text).length = (xs.flatMap text).length + b.text.length := by
      simp
    rw [place] at later
    rw [entries, List.filterMap_cons]
    by_cases isType : b.role.isType = true
    · obtain ⟨h, role⟩ := Role.exists_of_isType isType
      have entry : (b.entry (.ofText code) (xs.flatMap text).length).type?
          = some ⟨h, (xs.flatMap text).length + b.kept.length,
            h.visibilityToken.map fun t => (Layout.offset? (.ofText code) t).getD 0,
            (Layout.offset? (.ofText code) h.anchor).getD 0⟩ := by
        rw [Block.entry, role]
        rfl
      have parts : partsFrom rest (b :: ys)
          = ⟨b.item, h, b.pieces, ownedText rest ys, strays ys⟩ :: partsFrom rest ys := by
        rw [partsFrom, role]
      rw [entry, parts]
      refine .cons ⟨rfl, ?_, ?_, spots xs b ys split, rfl, rfl, ?_⟩ later
      · rw [← (sound b (by simp [split])).role, role]
      · refine ⟨xs.flatMap Block.text ++ b.kept, b.taken ++ (ys.flatMap Block.text ++ rest), ?_,
          by simp⟩
        rw [show (ofBlocks code all).code = code from rfl, whole, split]
        simp [Block.text]
      · intro item amends
        have rendered := render_owned rest item (split ▸ sound) isType amends
          (.ofText code) (split ▸ whole)
        rw [← split] at rendered
        exact rendered
    · have other : b.role.isType = false := Bool.eq_false_iff.2 isType
      rw [type?_eq_none other, partsFrom_of_isType_false other]
      exact later

end Block

end JavaUnits
