import Mathlib.Data.List.Pairwise
import JavaUnits.Proofs.Render
import JavaUnits.Proofs.Sites

/-!
The types tile the text behind the lead. What an item takes up, its cut or the beginning of its
type included, lies behind what the item before it takes up; so every cut lies in the lead or in one
type, and a rendering of the whole text falls apart where the types begin.
-/

namespace JavaUnits

open CodePoint Token Scan Span Text CompilationUnit

/-! ## Rendering with cuts alone -/

namespace Span

variable {code : Text} {cuts : List Span}

/-- Whether the cuts lie one behind another, with something in each. -/
structure Ascends (cuts : List Span) : Prop where
  apart : cuts.Pairwise fun cut later => cut.stop ≤ later.start
  solid : ∀ cut ∈ cuts, cut.start < cut.stop

/-- Whether no cut goes over a place. -/
def Spares (cuts : List Span) (place : Nat) : Prop :=
  ∀ cut ∈ cuts, cut.stop ≤ place ∨ place ≤ cut.start

/-- The cuts that touch a span. -/
def touching (span : Span) (cuts : List Span) : List Span :=
  cuts.filter fun cut => cut.start < span.stop && span.start < cut.stop

theorem Ascends.patches (ascends : Ascends cuts) (span : Span) :
    span.patches cuts [] = (span.touching cuts).map Patch.ofCut := by
  have given :
      span.patches cuts [] = ((span.touching cuts).map Patch.ofCut).mergeSort Patch.le := by
    simp only [Span.patches, List.filter_nil, List.map_nil, List.append_nil]
    rfl
  rw [given]
  apply mergeSort_patches (List.Perm.refl _)
  rw [List.pairwise_map]
  apply List.Pairwise.imp_of_mem (fun {cut later} mem _ apart => ?_)
    (ascends.apart.sublist List.filter_sublist)
  have := ascends.solid cut (List.mem_of_mem_filter mem)
  exact Nat.lt_of_lt_of_le this apart

theorem sweep_append {position middle stop : Nat} {ps qs : List Patch}
    (front : ∀ p ∈ ps, p.span.start ≤ middle ∧ p.span.stop ≤ middle)
    (back : ∀ q ∈ qs, middle ≤ q.span.start ∧ q.span.start ≤ q.span.stop)
    (before : position ≤ middle) (after : middle ≤ stop) :
    sweep code stop position (ps ++ qs)
      = sweep code middle position ps ++ sweep code stop middle qs := by
  induction ps generalizing position with
  | nil =>
    cases qs with
    | nil => exact (slice_append before after).symm
    | cons q qs =>
      obtain ⟨behind, less⟩ := back q List.mem_cons_self
      have starts : max q.span.start position = max q.span.start middle := by omega
      have stops : max position q.span.stop = max middle q.span.stop := by omega
      have split := slice_append (s := code) before
        (show middle ≤ max q.span.start middle by omega)
      rw [List.nil_append, sweep, sweep, sweep, starts, stops, ← split]
      simp only [List.append_assoc]
  | cons p ps ih =>
    rw [List.forall_mem_cons] at front
    rw [List.cons_append, sweep, sweep, ih front.2 (by omega)]
    simp only [List.append_assoc]

/-- Where no cut goes over a place, a rendering may be split there. -/
theorem Ascends.render_append (ascends : Ascends cuts) {start middle stop : Nat}
    (spares : Spares cuts middle) (before : start ≤ middle) (after : middle ≤ stop) :
    render code ⟨start, stop⟩ cuts []
      = render code ⟨start, middle⟩ cuts [] ++ render code ⟨middle, stop⟩ cuts [] := by
  obtain ⟨front, back, rfl, stops, starts⟩ : ∃ front back, cuts = front ++ back ∧
      (∀ cut ∈ front, cut.stop ≤ middle) ∧ ∀ cut ∈ back, middle ≤ cut.start := by
    clear before after
    induction cuts with
    | nil => exact ⟨[], [], rfl, nofun, nofun⟩
    | cons cut cuts ih =>
      obtain ⟨apart, solid⟩ := ascends
      rw [List.pairwise_cons] at apart
      rw [List.forall_mem_cons] at solid
      obtain ⟨here, spares⟩ := List.forall_mem_cons.1 spares
      rcases here with stops | starts
      · obtain ⟨front, back, rfl, stops', starts⟩ := ih ⟨apart.2, solid.2⟩ spares
        exact ⟨cut :: front, back, rfl, List.forall_mem_cons.2 ⟨stops, stops'⟩, starts⟩
      · refine ⟨[], cut :: cuts, rfl, nofun, List.forall_mem_cons.2 ⟨starts, fun later mem => ?_⟩⟩
        have := apart.1 later mem
        omega
  have solid := ascends.solid
  simp only [List.mem_append] at solid
  have whole : touching ⟨start, stop⟩ (front ++ back)
      = touching ⟨start, middle⟩ (front ++ back) ++ touching ⟨middle, stop⟩ (front ++ back) := by
    have inFront : touching ⟨middle, stop⟩ front = [] := by
      refine List.filter_eq_nil_iff.2 fun cut mem => ?_
      have := stops cut mem
      simp only [Bool.and_eq_true, decide_eq_true_eq]
      omega
    have inBack : touching ⟨start, middle⟩ back = [] := by
      refine List.filter_eq_nil_iff.2 fun cut mem => ?_
      have := starts cut mem
      simp only [Bool.and_eq_true, decide_eq_true_eq]
      omega
    have ofFront : touching ⟨start, stop⟩ front = touching ⟨start, middle⟩ front := by
      refine List.filter_congr fun cut mem => ?_
      have := stops cut mem
      have := solid cut (.inl mem)
      simp only [decide_eq_true (show cut.start < stop by omega),
        decide_eq_true (show cut.start < middle by omega)]
    have ofBack : touching ⟨start, stop⟩ back = touching ⟨middle, stop⟩ back := by
      refine List.filter_congr fun cut mem => ?_
      have := starts cut mem
      have := solid cut (.inr mem)
      simp only [decide_eq_true (show start < cut.stop by omega),
        decide_eq_true (show middle < cut.stop by omega)]
    simp only [touching, List.filter_append] at inFront inBack ofFront ofBack ⊢
    rw [inFront, inBack, ofFront, ofBack, List.append_nil, List.nil_append]
  simp only [render, ascends.patches, whole, List.map_append]
  have inside {low high : Nat} {p : Patch}
      (mem : p ∈ (touching ⟨low, high⟩ (front ++ back)).map Patch.ofCut) :
      p.span ∈ front ++ back ∧ p.span.start < high ∧ low < p.span.stop := by
    obtain ⟨cut, touches, rfl⟩ := List.mem_map.1 mem
    simp only [touching, List.mem_filter, Bool.and_eq_true, decide_eq_true_eq] at touches
    exact touches
  apply sweep_append
  · intro p mem
    obtain ⟨among, less, -⟩ := inside mem
    rcases spares _ among with stops | starts
    · exact ⟨by omega, stops⟩
    · omega
  · intro q mem
    obtain ⟨among, -, more⟩ := inside mem
    have := ascends.solid _ among
    rcases spares _ among with stops | starts
    · omega
    · exact ⟨starts, by omega⟩
  · exact before
  · exact after

/-- Whether spans, none of them empty, lie one behind another from `start` to `stop` without a
gap. -/
def Fill (start stop : Nat) : List Span → Prop
  | [] => start = stop
  | span :: spans => span.start = start ∧ start < span.stop ∧ Fill span.stop stop spans

instance Fill.decide (start stop : Nat) (spans : List Span) : Decidable (Fill start stop spans) :=
  match spans with
  | [] => inferInstanceAs (Decidable (start = stop))
  | span :: spans =>
    have := Fill.decide span.stop stop spans
    inferInstanceAs (Decidable (span.start = start ∧ start < span.stop ∧ Fill span.stop stop spans))

theorem Fill.bounds {start stop : Nat} {spans : List Span} (fill : Fill start stop spans) :
    start ≤ stop ∧
      ∀ span ∈ spans, start ≤ span.start ∧ span.start < span.stop ∧ span.stop ≤ stop := by
  induction spans generalizing start with
  | nil => exact ⟨Nat.le_of_eq fill, nofun⟩
  | cons span spans ih =>
    obtain ⟨begins, less, fill⟩ := fill
    obtain ⟨le, bounds⟩ := ih fill
    refine ⟨by omega, List.forall_mem_cons.2 ⟨by omega, fun later mem => ?_⟩⟩
    have := bounds later mem
    omega

theorem Fill.pairwise {start stop : Nat} {spans : List Span} (fill : Fill start stop spans) :
    spans.Pairwise fun span later => span.stop ≤ later.start := by
  induction spans generalizing start with
  | nil => exact .nil
  | cons span spans ih =>
    obtain ⟨-, -, fill⟩ := fill
    exact .cons (fun later mem => (fill.bounds.2 later mem).1) (ih fill)

/-- Whether a span lies in another. -/
def Within (inner outer : Span) : Prop :=
  outer.start ≤ inner.start ∧ inner.stop ≤ outer.stop

instance (inner outer : Span) : Decidable (inner.Within outer) :=
  inferInstanceAs (Decidable (_ ∧ _))

/-- Whether two spans have no place in common. -/
def Apart (span other : Span) : Prop :=
  span.stop ≤ other.start ∨ other.stop ≤ span.start

instance (span other : Span) : Decidable (span.Apart other) :=
  inferInstanceAs (Decidable (_ ∨ _))

end Span

/-! ## What items take up -/

namespace CompilationUnit

/-- An item with the entry that is made of it and the place where it stands. -/
structure Tile where
  item : Item
  entry : Entry
  first : Nat
  stop : Nat

namespace Tile

/-- What an item takes up: what is cut out for it, or all from where the text of its type begins. -/
def range (x : Tile) : Span :=
  match x.entry with
  | .package _ cut | .importDecl _ cut => cut
  | .type t => ⟨t.start, x.stop⟩
  | .stray => ⟨x.first, x.stop⟩

structure IsSound (code : Text) (x : Tile) : Prop where
  stands : Item.Stands code x.item x.first x.stop
  header : x.entry.type?.map Located.header = x.item.header?
  before : x.range.start ≤ x.first
  behind : x.stop ≤ x.range.stop

/-- Whether tiles lie one behind another from `taken` on. -/
def Ascend (code : Text) (taken : Nat) : List Tile → Prop
  | [] => taken ≤ code.length
  | x :: xs => taken ≤ x.range.start ∧ x.IsSound code ∧ Ascend code x.range.stop xs

end Tile

variable {code : Text} {previousEnd taken first stop : Nat} {last : Option Span} {item : Item}

theorem offset_of_offset? {layout : Layout} {t : Token} {n m : Nat}
    (found : layout.offset? t = some n) (ok : offset layout t = .ok m) : m = n := by
  rw [offset, found] at ok
  exact (Except.ok.inj ok).symm

theorem start_of_locate {h : Header} {t : Located} {n : Nat}
    (ok : locate code (.ofText code) previousEnd h = .ok t)
    (found : (Layout.ofText code).offset? h.first = some n) :
    typeStart code n previousEnd = .ok t.start := by
  obtain ⟨visibility, -, ok⟩ := bind_eq_ok.1 ok
  obtain ⟨anchor, -, ok⟩ := bind_eq_ok.1 ok
  obtain ⟨place, offset, ok⟩ := bind_eq_ok.1 ok
  obtain ⟨start, starts, ok⟩ := bind_eq_ok.1 ok
  obtain rfl := offset_of_offset? found offset
  rw [← Except.ok.inj ok, starts]

theorem Takes.classify {t : Token} {entry : Entry} (takes : Takes code previousEnd taken)
    (stands : Item.Stands code item first stop) (after : previousEnd ≤ first)
    (head : item.head? = some t)
    (ok : classify code (.ofText code) previousEnd stop last t item = .ok entry) :
    taken ≤ (Tile.mk item entry first stop).range.start ∧
      (Tile.mk item entry first stop).IsSound code ∧
      Takes code stop (Tile.mk item entry first stop).range.stop := by
  obtain ⟨-, -, header⟩ := classify_eq_ok head ok
  have found := stands.head t head
  have inked := stands.toInked
  -- A directive takes up its cut.
  have directive {cut : Span} (entry : Entry) (noType : entry.type? = none)
      (noHeader : item.header? = none)
      (range : (Tile.mk item entry first stop).range = cut)
      (ok : CompilationUnit.directiveSpan code last first stop = .ok cut) :
      taken ≤ (Tile.mk item entry first stop).range.start ∧
        (Tile.mk item entry first stop).IsSound code ∧
        Takes code stop (Tile.mk item entry first stop).range.stop := by
    obtain ⟨above, before, takes⟩ := takes.directiveSpan inked after ok
    subst range
    refine ⟨above, ⟨stands, ?_, before, takes.le⟩, takes⟩
    rw [noType, noHeader]
    rfl
  rw [CompilationUnit.classify] at ok
  split at ok
  · obtain ⟨place, offset, ok⟩ := bind_eq_ok.1 ok
    obtain ⟨cut, cuts, ok⟩ := bind_eq_ok.1 ok
    obtain rfl := offset_of_offset? found offset
    obtain rfl := Except.ok.inj ok
    exact directive _ rfl header.symm rfl cuts
  split at ok
  · obtain ⟨place, offset, ok⟩ := bind_eq_ok.1 ok
    obtain ⟨cut, cuts, ok⟩ := bind_eq_ok.1 ok
    obtain rfl := offset_of_offset? found offset
    obtain rfl := Except.ok.inj ok
    exact directive _ rfl header.symm rfl cuts
  split at ok
  · rename_i h type
    obtain ⟨located, locates, ok⟩ := bind_eq_ok.1 ok
    obtain rfl := Except.ok.inj ok
    have same : h.first = t := by
      have := (Header.ofItem?_mem type).1
      rw [head, Option.some.injEq] at this
      exact this.symm
    have starts := start_of_locate locates (same ▸ found)
    obtain ⟨above, before⟩ := takes.typeStart inked after starts
    exact ⟨above, ⟨stands, header, before, Nat.le_refl _⟩, takes_self inked⟩
  · obtain rfl := Except.ok.inj ok
    have before := takes.le_first inked after
    exact ⟨before, ⟨stands, header, Nat.le_refl _, Nat.le_refl _⟩, takes_self inked⟩

/-- The items of a text in which every token is found where it is written take up stretches that
lie one behind another. -/
theorem exists_tiles {items : List Item} {entries : List Entry}
    (takes : Takes code previousEnd taken)
    (sited : Sited code previousEnd items.flatten) (more : ∀ item ∈ items, item ≠ [])
    (lexed : ∀ item ∈ items, ∀ t ∈ item, ∃ rest, Lexeme t.kind t.value rest)
    (ok : entriesFrom code (.ofText code) previousEnd last items = .ok entries) :
    ∃ xs : List Tile, xs.map Tile.item = items ∧ xs.map Tile.entry = entries ∧
      Tile.Ascend code taken xs := by
  induction items generalizing previousEnd taken last entries with
  | nil =>
    obtain rfl := Except.ok.inj ok
    exact ⟨[], rfl, rfl, takes.inside⟩
  | cons item items ih =>
    rw [List.forall_mem_cons] at more lexed
    obtain ⟨first, stop, after, stands, later⟩ := sited.exists_stands more.1 lexed.1
    obtain ⟨t, ts, rfl⟩ := List.exists_cons_of_ne_nil more.1
    obtain ⟨final, ends⟩ : ∃ final, (t :: ts).getLast? = some final :=
      ⟨_, List.getLast?_eq_some_getLast more.1⟩
    rw [entriesFrom, ends] at ok
    obtain ⟨place, offset, ok⟩ := bind_eq_ok.1 ok
    obtain ⟨entry, classified, ok⟩ := bind_eq_ok.1 ok
    obtain ⟨entries, listed, ok⟩ := bind_eq_ok.1 ok
    obtain rfl := Except.ok.inj ok
    obtain ⟨n, found, whole⟩ := stands.final final ends
    obtain rfl := offset_of_offset? found offset
    rw [whole] at classified listed
    obtain ⟨above, sound, takes⟩ := takes.classify stands after rfl classified
    obtain ⟨xs, rfl, rfl, ascend⟩ := ih takes later more.2 lexed.2 listed
    exact ⟨⟨t :: ts, entry, first, stop⟩ :: xs, rfl, rfl, above, sound, ascend⟩

/-! ## Types and cuts among tiles -/

namespace Tile

def types (xs : List Tile) : List Located :=
  (xs.map Tile.entry).filterMap Entry.type?

def cuts (xs : List Tile) : List Span :=
  (xs.map Tile.entry).filterMap Entry.cut?

end Tile

/-- Where the first of the types begins, or the text ends. -/
def leadStop (code : Text) (ts : List Located) : Nat :=
  (ts.head?.map Located.start).getD code.length

/-- The types of a text by their spans. -/
def spansOf (code : Text) : List Located → List Span
  | [] => []
  | t :: ts => ⟨t.start, leadStop code ts⟩ :: spansOf code ts

theorem map_span_typesOf (code : Text) (cuts : List Span) (ts : List Located) :
    (typesOf code cuts ts).map TypeDecl.span = spansOf code ts := by
  induction ts with
  | nil => rfl
  | cons t ts ih =>
    rw [typesOf, List.map_cons, spansOf, ih]
    rfl

namespace Tile

variable {x : Tile} {xs : List Tile} {t : Located}

theorem start_range (type : x.entry.type? = some t) : x.range.start = t.start := by
  rw [range]
  cases entry : x.entry <;> rw [entry] at type <;> cases type
  rfl

theorem range_of_cut {cut : Span} (directive : x.entry.cut? = some cut) : x.range = cut := by
  rw [range]
  cases entry : x.entry <;> rw [entry] at directive <;> cases directive <;> rfl

theorem type?_of_cut {cut : Span} (directive : x.entry.cut? = some cut) : x.entry.type? = none := by
  cases entry : x.entry <;> rw [entry] at directive <;> cases directive <;> rfl

theorem types_cons_of_some (type : x.entry.type? = some t) : types (x :: xs) = t :: types xs :=
  List.filterMap_cons_some type

theorem types_cons_of_none (none : x.entry.type? = none) : types (x :: xs) = types xs :=
  List.filterMap_cons_none none

theorem cuts_cons_of_some {cut : Span} (directive : x.entry.cut? = some cut) :
    cuts (x :: xs) = cut :: cuts xs :=
  List.filterMap_cons_some directive

theorem cuts_cons_of_none (none : x.entry.cut? = none) : cuts (x :: xs) = cuts xs :=
  List.filterMap_cons_none none

theorem leadStop_cons (code : Text) (type : x.entry.type? = some t) :
    leadStop code (types (x :: xs)) = x.range.start := by
  rw [types_cons_of_some type, start_range type]
  rfl

theorem IsSound.less (sound : x.IsSound code) : x.range.start < x.range.stop := by
  have less := sound.stands.less
  have before := sound.before
  have behind := sound.behind
  omega

theorem Ascend.le_leadStop (ascend : Ascend code taken xs) :
    taken ≤ leadStop code (types xs) ∧ leadStop code (types xs) ≤ code.length := by
  induction xs generalizing taken with
  | nil => exact ⟨ascend, Nat.le_refl _⟩
  | cons x xs ih =>
    obtain ⟨above, sound, ascend⟩ := ascend
    obtain ⟨later, bound⟩ := ih ascend
    have less := sound.less
    cases type : x.entry.type? with
    | none =>
      rw [types_cons_of_none type]
      omega
    | some t =>
      rw [leadStop_cons code type]
      omega

/-- The types take up all that is left behind the lead. -/
theorem Ascend.fill (ascend : Ascend code taken xs) :
    Fill (leadStop code (types xs)) code.length (spansOf code (types xs)) := by
  induction xs generalizing taken with
  | nil => exact rfl
  | cons x xs ih =>
    obtain ⟨above, sound, ascend⟩ := ascend
    have stop := ascend.le_leadStop.1
    have less := sound.less
    cases type : x.entry.type? with
    | none =>
      rw [types_cons_of_none type]
      exact ih ascend
    | some t =>
      rw [leadStop_cons code type, types_cons_of_some type, spansOf, start_range type]
      rw [start_range type] at less
      exact ⟨rfl, Nat.lt_of_lt_of_le less stop, ih ascend⟩

/-- Every cut lies in the lead or in one type. -/
theorem Ascend.exists_of_mem_cuts (ascend : Ascend code taken xs) {cut : Span}
    (mem : cut ∈ cuts xs) : taken ≤ cut.start ∧ cut.start < cut.stop ∧
      (cut.stop ≤ leadStop code (types xs) ∨
        ∃ span ∈ spansOf code (types xs),
          span.start ≤ cut.start ∧ cut.stop ≤ span.stop) := by
  induction xs generalizing taken with
  | nil => cases mem
  | cons x xs ih =>
    obtain ⟨above, sound, ascend⟩ := ascend
    have stop := ascend.le_leadStop.1
    have less := sound.less
    cases directive : x.entry.cut? with
    | some own =>
      rw [types_cons_of_none (type?_of_cut directive)]
      have range := range_of_cut directive
      rw [cuts_cons_of_some directive] at mem
      rcases List.mem_cons.1 mem with rfl | mem
      · rw [range] at above less stop
        exact ⟨above, less, .inl stop⟩
      · obtain ⟨above', solid, within⟩ := ih ascend mem
        exact ⟨by omega, solid, within⟩
    | none =>
      rw [cuts_cons_of_none directive] at mem
      obtain ⟨above', solid, within⟩ := ih ascend mem
      refine ⟨by omega, solid, ?_⟩
      cases type : x.entry.type? with
      | none =>
        rw [types_cons_of_none type]
        exact within
      | some t =>
        rw [types_cons_of_some type, spansOf, ← start_range type]
        rcases within with early | ⟨span, inside, holds⟩
        · exact .inr ⟨_, List.mem_cons_self, by show x.range.start ≤ _; omega, early⟩
        · exact .inr ⟨span, List.mem_cons_of_mem _ inside, holds⟩

/-- Cuts lie one behind another, and none goes over the beginning or the end of a type. -/
theorem Ascend.cuts (ascend : Ascend code taken xs) : Ascends (Tile.cuts xs) ∧
    Spares (Tile.cuts xs) (leadStop code (types xs)) ∧
    ∀ span ∈ spansOf code (types xs), Spares (Tile.cuts xs) span.stop := by
  induction xs generalizing taken with
  | nil => exact ⟨⟨.nil, nofun⟩, nofun, nofun⟩
  | cons x xs ih =>
    obtain ⟨above, sound, ascend⟩ := ascend
    obtain ⟨⟨apart, solid⟩, lead, spares⟩ := ih ascend
    have later {cut : Span} (mem : cut ∈ Tile.cuts xs) := (ascend.exists_of_mem_cuts mem).1
    have stop := ascend.le_leadStop.1
    have less := sound.less
    cases directive : x.entry.cut? with
    | some own =>
      rw [cuts_cons_of_some directive, types_cons_of_none (type?_of_cut directive)]
      rw [range_of_cut directive] at later stop less
      refine ⟨⟨.cons (fun cut mem => later mem) apart, List.forall_mem_cons.2 ⟨less, solid⟩⟩,
        List.forall_mem_cons.2 ⟨.inl stop, lead⟩, fun span mem => ?_⟩
      obtain ⟨behind, less', -⟩ := ascend.fill.bounds.2 span mem
      exact List.forall_mem_cons.2 ⟨.inl (by omega), spares span mem⟩
    | none =>
      rw [cuts_cons_of_none directive]
      cases type : x.entry.type? with
      | none =>
        rw [types_cons_of_none type]
        exact ⟨⟨apart, solid⟩, lead, spares⟩
      | some t =>
        rw [leadStop_cons code type, types_cons_of_some type]
        refine ⟨⟨apart, solid⟩, fun cut mem => ?_, List.forall_mem_cons.2 ⟨lead, spares⟩⟩
        have := later mem
        omega

theorem Ascend.items (ascend : Ascend code taken xs) (cuts : List Span) :
    List.Forall₂ (fun t x => x.item.header? = some t.header ∧ x.IsSound code ∧
        (Span.mk x.first x.stop).Within t.span)
      (typesOf code cuts (types xs)) (xs.filter fun x => x.item.header?.isSome) := by
  induction xs generalizing taken with
  | nil => exact .nil
  | cons x xs ih =>
    obtain ⟨above, sound, ascend⟩ := ascend
    have header := sound.header
    have before := sound.before
    have behind := sound.behind
    have stop := ascend.le_leadStop.1
    cases type : x.entry.type? with
    | none =>
      rw [type, Option.map_none] at header
      rw [types_cons_of_none type, List.filter_cons_of_neg (by simp [← header])]
      exact ih ascend
    | some t =>
      rw [type, Option.map_some] at header
      rw [types_cons_of_some type, List.filter_cons_of_pos (by simp [← header]), typesOf]
      rw [start_range type] at before
      exact .cons ⟨header.symm, sound, before, Nat.le_trans behind stop⟩ (ih ascend)

end Tile

/-- Where no cut goes over the end of a type, the rendering falls apart into those of the types. -/
theorem render_spansOf {cuts : List Span} (ascends : Ascends cuts) {ts : List Located}
    (spares : Spares cuts code.length)
    (spans : ∀ span ∈ spansOf code ts, span.start < span.stop ∧ span.stop ≤ code.length ∧
      Spares cuts span.stop) :
    render code ⟨leadStop code ts, code.length⟩ cuts []
      = (spansOf code ts).flatMap fun span => render code span cuts [] := by
  induction ts with
  | nil =>
    have none : touching ⟨code.length, code.length⟩ cuts = [] := by
      refine List.filter_eq_nil_iff.2 fun cut mem => ?_
      have := spares cut mem
      simp only [Bool.and_eq_true, decide_eq_true_eq]
      omega
    rw [leadStop, List.head?_nil, Option.map_none, Option.getD_none, render, ascends.patches, none,
      List.map_nil, sweep, spansOf, List.flatMap_nil]
    simp [slice]
  | cons t ts ih =>
    rw [spansOf, List.forall_mem_cons] at spans
    obtain ⟨⟨less, bound, apart⟩, spans⟩ := spans
    rw [spansOf, List.flatMap_cons, ← ih spans]
    exact ascends.render_append apart (Nat.le_of_lt less) bound

def lead (u : CompilationUnit) : Span :=
  ⟨0, (u.types.head?.map fun t => t.span.start).getD u.code.length⟩

def place? (u : CompilationUnit) (t : Token) : Option Span :=
  ((Layout.ofText u.code).offset? t).map fun n => ⟨n, n + t.value.length⟩

/-- Whether the text of a type holds a token that no other type holds a part of. -/
def Owns (u : CompilationUnit) (t : TypeDecl) (token : Token) : Prop :=
  ∃ place ∈ u.place? token, place.Within t.span ∧
    ∀ other ∈ u.types, other ≠ t → place.Apart other.span

/-- The items of a parsed text lie one behind another, as its tokens do, and its entries are listed
from them. -/
theorem exists_tiles_listed {s : Text} {u : CompilationUnit} (parsed : parse s = .ok u)
    (sited : s.IsSited) : ∃ xs : List Tile, Tile.Ascend u.code 0 xs ∧ xs.map Tile.item = s.items ∧
      entriesFrom u.code (.ofText u.code) 0 none s.items = .ok (xs.map Tile.entry) ∧
      u = ofEntries u.code (xs.map Tile.entry) := by
  obtain ⟨ts, there, sited⟩ := sited
  have read := toOption_eq_some.1 there
  have items := items_of_tokenize read
  obtain ⟨ts', entries, read', listed, rfl⟩ := parse_eq_ok.1 parsed
  obtain rfl := Except.ok.inj (read.symm.trans read')
  rw [← Item.flatten_group ts] at sited
  obtain ⟨xs, isItems, rfl, ascend⟩ := exists_tiles (takes_nothing _) sited
    (fun item mem => Item.ne_nil_of_mem_group mem) (fun item mem t inside => by
      obtain ⟨decoded, -, rfl⟩ := tokenize_eq_ok read
      exact (lexeme_of_mem_tokens (Item.mem_of_mem_group mem inside)).1) listed
  exact ⟨xs, ascend, isItems.trans items.symm, by rw [items]; exact listed, rfl⟩

theorem exists_tiles_of_parse {s : Text} {u : CompilationUnit} (parsed : parse s = .ok u)
    (sited : s.IsSited) : ∃ xs : List Tile, Tile.Ascend u.code 0 xs ∧ xs.map Tile.item = s.items ∧
      u.directives = Tile.cuts xs ∧ u.types = typesOf u.code u.directives (Tile.types xs) := by
  obtain ⟨xs, ascend, items, -, same⟩ := exists_tiles_listed parsed sited
  exact ⟨xs, ascend, items, by rw [same]; rfl, by rw [same]; rfl⟩

/-- The types take up all the text behind the lead, each with its own declaration and no part of
another, every directive lies in the lead or in one type, and the text without directives is put
together from the lead and the types without them. -/
theorem spans_of_parse {s : Text} {u : CompilationUnit} (parsed : parse s = .ok u)
    (sited : s.IsSited) :
    Fill u.lead.stop u.code.length (u.types.map TypeDecl.span) ∧
    List.Forall₂ (fun t item => item.header? = some t.header ∧ ∀ token ∈ item, u.Owns t token)
      u.types (s.items.filter fun item => item.header?.isSome) ∧
    (∀ cut ∈ u.directives, cut.Within u.lead ∨ ∃ t ∈ u.types, cut.Within t.span) ∧
    u.text ⟨0, u.code.length⟩ []
      = u.text u.lead [] ++ u.types.flatMap fun t => u.text t.span [] := by
  obtain ⟨xs, ascend, items, directives, types⟩ := exists_tiles_of_parse parsed sited
  obtain ⟨ascends, lead, ends⟩ := ascend.cuts
  have spans : u.types.map TypeDecl.span = spansOf u.code (Tile.types xs) := by
    rw [types, map_span_typesOf]
  have stop : u.lead.stop = leadStop u.code (Tile.types xs) := by
    rw [CompilationUnit.lead, types]
    cases Tile.types xs <;> rfl
  have fill := ascend.fill
  rw [← spans, ← stop] at fill
  rw [← directives] at ascends lead ends
  rw [← spans] at ends
  refine ⟨fill, ?_, fun cut mem => ?_, ?_⟩
  · have apart : u.types.Pairwise fun t other => t.span.Apart other.span := by
      have pairwise := fill.pairwise
      rw [List.pairwise_map] at pairwise
      exact pairwise.imp .inl
    have held := ascend.items u.directives
    rw [← types] at held
    rw [← items, List.filter_map, List.forall₂_map_right_iff]
    have among := (List.forall₂_and_left _ _).2 ⟨fun t (mem : t ∈ u.types) => mem, held⟩
    refine among.imp fun t x ⟨mem, header, sound, within⟩ => ⟨header, fun token inside => ?_⟩
    obtain ⟨n, found, above, below⟩ := sound.stands.inside token inside
    refine ⟨⟨n, n + token.value.length⟩, by rw [place?, found]; rfl,
      ⟨Nat.le_trans within.1 above, Nat.le_trans below within.2⟩, fun other isType differs => ?_⟩
    -- The other type lies before this one or behind it.
    have : Std.Symm fun t other : TypeDecl => t.span.Apart other.span := ⟨fun _ _ => Or.symm⟩
    rcases apart.forall isType mem differs with before | behind
    · exact .inr (Nat.le_trans before (Nat.le_trans within.1 above))
    · exact .inl (Nat.le_trans below (Nat.le_trans within.2 behind))
  · rw [directives] at mem
    obtain ⟨-, -, early | ⟨span, inside, within⟩⟩ := ascend.exists_of_mem_cuts mem
    · exact .inl ⟨Nat.zero_le _, stop ▸ early⟩
    · rw [← spans] at inside
      obtain ⟨t, isType, rfl⟩ := List.mem_map.1 inside
      exact .inr ⟨t, isType, within⟩
  · have spares : Spares u.directives u.code.length := by
      intro cut mem
      rw [directives] at mem
      obtain ⟨-, -, early | ⟨span, inside, within⟩⟩ := ascend.exists_of_mem_cuts mem
      · have := ascend.le_leadStop.2
        omega
      · have := ascend.fill.bounds.2 span inside
        have := within.2
        omega
    have whole := @Ascends.render_append u.code _ ascends _ _ _ lead (Nat.zero_le _)
      ascend.le_leadStop.2
    have behind := @render_spansOf u.code _ ascends (Tile.types xs) spares fun span mem => by
      have bounds := ascend.fill.bounds.2 span mem
      exact ⟨bounds.2.1, bounds.2.2, ends span (spans ▸ mem)⟩
    rw [behind, ← spans, ← stop, List.flatMap_map] at whole
    exact whole

/-- Directives before, between and behind types, two types on a line and an escape in a comment. -/
def interspersed : Text :=
  "package p; /* \\u0041 */ import a.B;\nclass C \x7b\x7d class D \x7b\n\x7d ; import d.E; // d\n"
    ++ "  import f.G;\n\n@F\nenum H \x7b\x7d\n"

theorem spans_of_parse_interspersed : interspersed.IsSited ∧ ∃ u, parse interspersed = .ok u ∧
    Fill u.lead.stop u.code.length (u.types.map TypeDecl.span) ∧ u.types.length = 3 ∧
    (∀ cut ∈ u.directives, cut.Within u.lead ∨ ∃ t ∈ u.types, cut.Within t.span) ∧
    u.text ⟨0, u.code.length⟩ []
      = u.text u.lead [] ++ u.types.flatMap fun t => u.text t.span [] := by
  obtain ⟨sited, u, there, three⟩ : interspersed.IsSited ∧
      ∃ u ∈ (parse interspersed).toOption, u.types.length = 3 := by
    rw [interspersed, ofString_ofList, ofString_ofList]
    decide +kernel
  have parsed := toOption_eq_some.1 there
  obtain ⟨fill, -, within, whole⟩ := spans_of_parse parsed sited
  exact ⟨sited, u, parsed, fill, three, within, whole⟩

end CompilationUnit

end JavaUnits
