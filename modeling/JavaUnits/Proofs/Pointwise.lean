import Mathlib
import JavaUnits.Proofs.Render

/-!
Rendering place by place. A rendering sweeps over patches in their order, but what it puts out can
be told for each place of the span by itself: the texts of the edits there, and then the code point,
unless a cut or an edit takes it away. So a span may be rendered in parts.
-/

namespace JavaUnits

/-- The order of edits at one place: the shorter ones first, and of one length by their texts. -/
def Edit.le (e f : Edit) : Bool :=
  e.length < f.length || e.length == f.length && e.text.le f.text

namespace Span

open Text

/-! ## Places one after another -/

/-- What is put out for the places from `start` on: at each what is `put` there, and then the code
point unless it is `gone`. -/
def walk (code : Text) (put : Nat → Text) (gone : Nat → Bool) (start length : Nat) : Text :=
  (List.range' start length).flatMap fun place =>
    put place ++ if gone place then [] else code[place]?.toList

section

variable {code : Text} {put put' : Nat → Text} {gone gone' : Nat → Bool} {start n : Nat}

theorem walk_add (code : Text) (put : Nat → Text) (gone : Nat → Bool) (start m n : Nat) :
    walk code put gone start (m + n)
      = walk code put gone start m ++ walk code put gone (start + m) n := by
  rw [walk, ← List.range'_append_1, List.flatMap_append]
  rfl

theorem walk_congr (same : ∀ place, start ≤ place → place < start + n →
    put place = put' place ∧ gone place = gone' place) :
    walk code put gone start n = walk code put' gone' start n := by
  refine List.flatMap_congr fun place mem => ?_
  obtain ⟨above, below⟩ := List.mem_range'_1.1 mem
  obtain ⟨texts, points⟩ := same place above below
  rw [texts, points]

theorem slice_concat (code : Text) {start stop : Nat} (le : start ≤ stop) :
    code.slice start stop ++ code[stop]?.toList = code.slice start (stop + 1) := by
  rw [slice, slice, List.take_add_one, List.drop_append]
  by_cases within : stop ≤ code.length
  · rw [List.length_take, Nat.min_eq_left within, Nat.sub_eq_zero_of_le le, List.drop_zero]
  · rw [List.getElem?_eq_none (by omega)]
    simp

theorem walk_stays (stays : ∀ place, start ≤ place → place < start + n →
    put place = [] ∧ gone place = false) :
    walk code put gone start n = code.slice start (start + n) := by
  induction n with
  | zero => simp [walk, slice]
  | succ n ih =>
    have front := ih fun place above below => stays place above (by omega)
    obtain ⟨texts, points⟩ := stays (start + n) (by omega) (by omega)
    have last : walk code put gone (start + n) 1 = code[start + n]?.toList := by
      simp [walk, texts, points]
    rw [walk_add, front, last, slice_concat code (by omega)]
    rfl

theorem walk_gone (gone' : ∀ place, start ≤ place → place < start + n → gone place = true) :
    walk code put gone start n = (List.range' start n).flatMap put := by
  refine List.flatMap_congr fun place mem => ?_
  obtain ⟨above, below⟩ := List.mem_range'_1.1 mem
  rw [gone' place above below, if_pos rfl, List.append_nil]

/-- What is put first at the first place comes before all the rest. -/
theorem walk_first {text : Text} (more : 0 < n) (first : put start = text ++ put' start)
    (later : ∀ place, start < place → put place = put' place) :
    walk code put gone start n = text ++ walk code put' gone start n := by
  obtain ⟨n, rfl⟩ : ∃ m, n = m + 1 := ⟨n - 1, by omega⟩
  have rest : walk code put gone (start + 1) n = walk code put' gone (start + 1) n :=
    walk_congr fun place above _ => ⟨later place above, rfl⟩
  rw [Nat.add_comm n 1, walk_add, walk_add, rest]
  simp [walk, first]

end

/-! ## Sweeping -/

def textsAt (ps : List Patch) (place : Nat) : Text :=
  (ps.filter fun p => p.span.start == place).flatMap Patch.text

def textsBefore (ps : List Patch) (place : Nat) : Text :=
  (ps.filter fun p => p.span.start < place).flatMap Patch.text

def isPatched (ps : List Patch) (place : Nat) : Bool :=
  ps.any fun p => p.span.start ≤ place && place < p.span.stop

/-- Whether the patches come in the order of their starts. -/
def StartInOrder (ps : List Patch) : Prop :=
  ps.Pairwise fun p q => p.span.start ≤ q.span.start

section

variable {code : Text} {p : Patch} {ps : List Patch} {stop position place : Nat}

theorem textsAt_cons (p : Patch) (ps : List Patch) (place : Nat) : textsAt (p :: ps) place
    = if p.span.start = place then p.text ++ textsAt ps place else textsAt ps place := by
  rw [textsAt, List.filter_cons]
  by_cases here : p.span.start = place <;> simp [textsAt, here]

theorem textsBefore_cons (p : Patch) (ps : List Patch) (place : Nat) : textsBefore (p :: ps) place
    = if p.span.start < place then p.text ++ textsBefore ps place else textsBefore ps place := by
  rw [textsBefore, List.filter_cons]
  by_cases before : p.span.start < place <;> simp [textsBefore, before]

theorem isPatched_cons (p : Patch) (ps : List Patch) (place : Nat) : isPatched (p :: ps) place
    = (p.span.start ≤ place && place < p.span.stop || isPatched ps place) :=
  List.any_cons

theorem textsAt_of_lt (later : ∀ p ∈ ps, place < p.span.start) : textsAt ps place = [] := by
  rw [textsAt, List.filter_eq_nil_iff.2, List.flatMap_nil]
  intro p mem
  have := later p mem
  simp only [beq_iff_eq]
  omega

theorem textsBefore_of_le (later : ∀ p ∈ ps, place ≤ p.span.start) : textsBefore ps place = [] := by
  rw [textsBefore, List.filter_eq_nil_iff.2, List.flatMap_nil]
  intro p mem
  have := later p mem
  simp only [decide_eq_true_eq]
  omega

theorem textsBefore_of_lt (all : ∀ p ∈ ps, p.span.start < place) :
    textsBefore ps place = ps.flatMap Patch.text := by
  rw [textsBefore, List.filter_eq_self.2 fun p mem => decide_eq_true (all p mem)]

theorem isPatched_of_lt (later : ∀ p ∈ ps, place < p.span.start) : isPatched ps place = false := by
  rw [isPatched, List.any_eq_false]
  intro p mem
  have := later p mem
  simp only [Bool.and_eq_true, decide_eq_true_eq]
  omega

theorem textsBefore_succ (ordered : StartInOrder ps) (place : Nat) :
    textsBefore ps (place + 1) = textsBefore ps place ++ textsAt ps place := by
  induction ps with
  | nil => rfl
  | cons p ps ih =>
    obtain ⟨first, ordered⟩ := List.pairwise_cons.1 ordered
    rw [textsBefore_cons, textsBefore_cons, textsAt_cons, ih ordered]
    rcases Nat.lt_trichotomy p.span.start place with before | here | behind
    · rw [if_pos (by omega), if_pos before, if_neg (by omega), List.append_assoc]
    · have none : textsBefore ps place = [] := textsBefore_of_le fun q mem => here ▸ first q mem
      rw [if_pos (by omega), if_neg (by omega), if_pos here, none, List.nil_append, List.nil_append]
    · rw [if_neg (by omega), if_neg (by omega), if_neg (by omega)]

theorem textsBefore_add (ordered : StartInOrder ps) (place n : Nat) :
    textsBefore ps (place + n)
      = textsBefore ps place ++ (List.range' place n).flatMap (textsAt ps) := by
  induction n with
  | zero => simp
  | succ n ih =>
    rw [← Nat.add_assoc, textsBefore_succ ordered, ih, List.range'_1_concat, List.flatMap_append]
    simp

/-- Places that a patch takes away are passed, up to the end of what it takes. -/
theorem walk_patched (ordered : StartInOrder ps) (inside : ∀ q ∈ ps, q.span.start < stop)
    (begun : p.span.start ≤ position) :
    textsBefore ps position
        ++ walk code (textsAt ps) (isPatched (p :: ps)) position (stop - position)
      = textsBefore ps (max position p.span.stop) ++ walk code (textsAt ps) (isPatched ps)
        (max position p.span.stop) (stop - max position p.span.stop) := by
  have taken (place : Nat) (above : position ≤ place) (below : place < p.span.stop) :
      isPatched (p :: ps) place = true := by
    rw [isPatched_cons, decide_eq_true (by omega), decide_eq_true below]
    rfl
  by_cases within : max position p.span.stop ≤ stop
  · have parts : stop - position
        = (max position p.span.stop - position) + (stop - max position p.span.stop) := by omega
    have rest : position + (max position p.span.stop - position) = max position p.span.stop := by
      omega
    have last : walk code (textsAt ps) (isPatched (p :: ps)) (max position p.span.stop)
        (stop - max position p.span.stop) = walk code (textsAt ps) (isPatched ps)
          (max position p.span.stop) (stop - max position p.span.stop) := by
      refine walk_congr fun place above _ => ⟨rfl, ?_⟩
      rw [isPatched_cons, decide_eq_false (by omega : ¬ place < p.span.stop)]
      simp
    rw [parts, walk_add, walk_gone fun place above below => taken place above (by omega), rest,
      last, ← List.append_assoc, ← textsBefore_add ordered, rest]
  · rw [walk_gone fun place above below => taken place above (by omega),
      ← textsBefore_add ordered, textsBefore_of_lt fun q mem => ?_,
      textsBefore_of_lt fun q mem => ?_, Nat.sub_eq_zero_of_le (by omega)]
    · simp [walk]
    · have := inside q mem
      omega
    · have := inside q mem
      omega

/-- A sweep puts out the texts of the patches that began before its position, and from there on goes
place by place. -/
theorem sweep_eq_walk (ordered : StartInOrder ps)
    (sound : ∀ p ∈ ps, p.span.start ≤ p.span.stop ∧ p.span.start < stop) :
    sweep code stop position ps = textsBefore ps position
      ++ walk code (textsAt ps) (isPatched ps) position (stop - position) := by
  induction ps generalizing position with
  | nil =>
    have stays : walk code (textsAt []) (isPatched []) position (stop - position)
        = code.slice position (position + (stop - position)) :=
      walk_stays fun _ _ _ => ⟨rfl, rfl⟩
    rw [stays, sweep]
    by_cases inside : position ≤ stop
    · rw [Nat.add_sub_cancel' inside]
      rfl
    · rw [Nat.sub_eq_zero_of_le (by omega), slice, slice, List.drop_eq_nil_of_le,
        List.drop_eq_nil_of_le]
      · rfl
      · rw [List.length_take]
        omega
      · rw [List.length_take]
        omega
  | cons p ps ih =>
    obtain ⟨first, ordered⟩ := List.pairwise_cons.1 ordered
    rw [List.forall_mem_cons] at sound
    obtain ⟨⟨forward, within⟩, sound⟩ := sound
    have inside : ∀ q ∈ ps, q.span.start < stop := fun q mem => (sound q mem).2
    rw [sweep, ih ordered sound, textsBefore_cons]
    by_cases late : p.span.start < position
    · have begun : walk code (textsAt (p :: ps)) (isPatched (p :: ps)) position (stop - position)
          = walk code (textsAt ps) (isPatched (p :: ps)) position (stop - position) :=
        walk_congr fun place above _ => ⟨by rw [textsAt_cons, if_neg (by omega)], rfl⟩
      have nothing : code.slice position (max p.span.start position) = [] := by
        rw [Nat.max_eq_right (by omega), slice, List.drop_eq_nil_of_le (List.length_take_le _ _)]
      rw [if_pos late, begun, nothing, List.nil_append, List.append_assoc,
        walk_patched ordered inside (by omega)]
    · have quiet : textsBefore ps position = [] :=
        textsBefore_of_le fun q mem => by have := first q mem; omega
      have stays : walk code (textsAt (p :: ps)) (isPatched (p :: ps)) position
          (p.span.start - position) = code.slice position p.span.start := by
        have ahead (place : Nat) (below : place < position + (p.span.start - position)) :
            ∀ q ∈ p :: ps, place < q.span.start := by
          rw [List.forall_mem_cons]
          exact ⟨by omega, fun q mem => by have := first q mem; omega⟩
        rw [walk_stays fun place _ below =>
          ⟨textsAt_of_lt (ahead place below), isPatched_of_lt (ahead place below)⟩]
        congr 1
        omega
      have here : walk code (textsAt (p :: ps)) (isPatched (p :: ps)) p.span.start
          (stop - p.span.start) = p.text
            ++ walk code (textsAt ps) (isPatched (p :: ps)) p.span.start (stop - p.span.start) := by
        refine walk_first (by omega) ?_ fun place behind => ?_
        · rw [textsAt_cons, if_pos rfl]
        · rw [textsAt_cons, if_neg (by omega)]
      have passed := @walk_patched code _ _ _ _ ordered inside (Nat.le_refl p.span.start)
      rw [textsBefore_of_le first, List.nil_append] at passed
      rw [if_neg late, quiet, List.nil_append, show stop - position
        = (p.span.start - position) + (stop - p.span.start) by omega, walk_add, stays,
        Nat.add_sub_cancel' (by omega : position ≤ p.span.start), here, passed,
        Nat.max_eq_left (by omega : position ≤ p.span.start), Nat.max_eq_right forward,
        Nat.max_eq_right (by omega : position ≤ p.span.stop), List.append_assoc]

end

/-! ## Rendering -/

/-- What the edits put at a place. -/
def putAt (edits : List Edit) (place : Nat) : Text :=
  ((edits.filter fun e => e.offset == place).mergeSort Edit.le).flatMap Edit.text

/-- Whether a cut takes away the code point at a place, or an edit that begins in the span. -/
def takesAway (span : Span) (cuts : List Span) (edits : List Edit) (place : Nat) : Bool :=
  (cuts.any fun cut => cut.start ≤ place && place < cut.stop) ||
    edits.any fun e => span.start ≤ e.offset && e.offset < span.stop
      && (e.offset ≤ place && place < e.offset + e.length)

section

variable {code : Text} {span : Span} {cuts : List Span} {edits : List Edit} {place middle : Nat}

theorem mem_patches {p : Patch} : p ∈ span.patches cuts edits ↔
    (∃ cut ∈ cuts, (cut.start < span.stop ∧ span.start < cut.stop) ∧ Patch.ofCut cut = p) ∨
      ∃ e ∈ edits, (span.start ≤ e.offset ∧ e.offset < span.stop) ∧ Patch.ofEdit e = p := by
  rw [patches, (List.mergeSort_perm _ _).mem_iff]
  simp [Patch.ofCut, Patch.ofEdit, and_assoc]

theorem edit_le_iff {e f : Edit} : e.le f = true ↔
    e.length < f.length ∨ e.length = f.length ∧ e.text.le f.text = true := by
  simp [Edit.le]

theorem edit_le_total (e f : Edit) : (e.le f || f.le e) = true := by
  have texts := Text.le_total e.text f.text
  rw [Bool.or_eq_true] at texts ⊢
  rw [edit_le_iff, edit_le_iff]
  grind

theorem edit_le_trans {e f g : Edit} (first : e.le f = true) (second : f.le g = true) :
    e.le g = true := by
  have texts : e.text.le f.text = true → f.text.le g.text = true → e.text.le g.text = true :=
    Text.le_trans
  rw [edit_le_iff] at *
  grind

theorem ofEdit_le {e f : Edit} (same : e.offset = f.offset) (le : e.le f = true) :
    (Patch.ofEdit e).le (Patch.ofEdit f) = true := by
  rw [patch_le_iff]
  refine .inr ⟨same, ?_⟩
  rcases edit_le_iff.1 le with less | ⟨length, texts⟩
  · exact .inl (Nat.add_lt_add_of_le_of_lt (Nat.le_of_eq same) less)
  · exact .inr ⟨congrArg₂ (· + ·) same length, texts⟩

theorem startInOrder_patches (span : Span) (cuts : List Span) (edits : List Edit) :
    StartInOrder (span.patches cuts edits) := by
  refine (pairwise_mergeSort_patches _).imp fun le => ?_
  rw [patch_le_iff] at le
  omega

theorem flatMap_filter_text (ps : List Patch) :
    (ps.filter fun p => p.text ≠ []).flatMap Patch.text = ps.flatMap Patch.text := by
  induction ps with
  | nil => rfl
  | cons p ps ih =>
    rw [List.filter_cons]
    by_cases empty : p.text = [] <;> simp [empty] at ih ⊢ <;> exact ih

/-- At a place of the span the patches put what the edits put. Cuts put nothing, so that only the
patches with a text count, and of these the order fixes the list. -/
theorem textsAt_patches (above : span.start ≤ place) (below : place < span.stop) :
    textsAt (span.patches cuts edits) place = putAt edits place := by
  have here : putAt edits place
      = (((edits.filter fun e => e.offset == place).mergeSort Edit.le).map Patch.ofEdit).flatMap
        Patch.text := by
    rw [List.flatMap_map]
    rfl
  rw [here, textsAt, ← flatMap_filter_text, ← flatMap_filter_text (List.map _ _)]
  congr 1
  refine List.Perm.eq_of_pairwise (fun p q _ _ => patch_le_antisymm) ?_ ?_ ?_
  · exact ((pairwise_mergeSort_patches _).filter _).filter _
  · refine (List.pairwise_map.2 ?_).filter _
    have sorted := List.pairwise_mergeSort (fun e f g => edit_le_trans (e := e) (f := f) (g := g))
      edit_le_total (edits.filter fun e => e.offset == place)
    refine sorted.imp_of_mem fun eMem fMem le => ofEdit_le ?_ le
    rw [(List.mergeSort_perm _ _).mem_iff, List.mem_filter, beq_iff_eq] at eMem fMem
    rw [eMem.2, fMem.2]
  · have found : (span.patches cuts edits).Perm
        ((cuts.filter fun cut => cut.start < span.stop && span.start < cut.stop).map Patch.ofCut
          ++ (edits.filter fun e => span.start ≤ e.offset && e.offset < span.stop).map
            Patch.ofEdit) := List.mergeSort_perm _ _
    have ofCuts (l : List Span) : ((l.map Patch.ofCut).filter fun p => p.span.start == place).filter
        (fun p => p.text ≠ []) = [] := by
      simp [List.filter_map, Patch.ofCut]
    have ofEdits : ((edits.filter fun e => span.start ≤ e.offset && e.offset < span.stop).map
        Patch.ofEdit).filter (fun p => p.span.start == place)
          = (edits.filter fun e => e.offset == place).map Patch.ofEdit := by
      rw [List.filter_map, List.filter_filter]
      congr 1
      refine List.filter_congr fun e _ => ?_
      by_cases begins : e.offset = place <;> simp [Patch.ofEdit, begins, above, below]
    refine ((found.filter _).filter _).trans ?_
    rw [List.filter_append, List.filter_append, ofCuts, ofEdits, List.nil_append]
    exact ((List.mergeSort_perm _ _).symm.map _).filter _

theorem isPatched_patches (above : span.start ≤ place) (below : place < span.stop) :
    isPatched (span.patches cuts edits) place = takesAway span cuts edits place := by
  rw [Bool.eq_iff_iff, isPatched, takesAway, Bool.or_eq_true, List.any_eq_true, List.any_eq_true,
    List.any_eq_true]
  simp only [mem_patches, Bool.and_eq_true, decide_eq_true_eq]
  constructor
  · rintro ⟨p, ⟨cut, mem, -, rfl⟩ | ⟨e, mem, begins, rfl⟩, within⟩
    · exact .inl ⟨cut, mem, within⟩
    · exact .inr ⟨e, mem, begins, within⟩
  · rintro (⟨cut, mem, within⟩ | ⟨e, mem, begins, within⟩)
    · exact ⟨Patch.ofCut cut, .inl ⟨cut, mem, ⟨by omega, by omega⟩, rfl⟩, within⟩
    · exact ⟨Patch.ofEdit e, .inr ⟨e, mem, begins, rfl⟩, within⟩

/-- Only cuts begin before the span, and they put nothing. -/
theorem textsBefore_patches (span : Span) (cuts : List Span) (edits : List Edit) :
    textsBefore (span.patches cuts edits) span.start = [] := by
  rw [textsBefore, List.flatMap_eq_nil_iff]
  intro p mem
  rw [List.mem_filter, decide_eq_true_eq, mem_patches] at mem
  obtain ⟨⟨cut, -, -, rfl⟩ | ⟨e, -, begins, rfl⟩, before⟩ := mem
  · rfl
  · exact absurd before (Nat.not_lt.2 begins.1)

theorem render_eq_walk (ordered : ∀ cut ∈ cuts, cut.start ≤ cut.stop) :
    render code span cuts edits
      = walk code (putAt edits) (takesAway span cuts edits) span.start
        (span.stop - span.start) := by
  have sound : ∀ p ∈ span.patches cuts edits,
      p.span.start ≤ p.span.stop ∧ p.span.start < span.stop := by
    intro p mem
    rw [mem_patches] at mem
    obtain ⟨cut, mem, within, rfl⟩ | ⟨e, -, begins, rfl⟩ := mem
    · exact ⟨ordered cut mem, within.1⟩
    · exact ⟨Nat.le_add_right _ _, begins.2⟩
  rw [render, sweep_eq_walk (startInOrder_patches span cuts edits) sound, textsBefore_patches,
    List.nil_append]
  refine walk_congr fun place above below => ?_
  exact ⟨textsAt_patches above (by omega), isPatched_patches above (by omega)⟩

/-- Before a place that no edit crosses only the edits matter that begin before it. -/
theorem takesAway_front (below : place < middle) (within : middle ≤ span.stop) :
    takesAway ⟨span.start, middle⟩ cuts edits place = takesAway span cuts edits place := by
  rw [takesAway, takesAway]
  congr 2
  funext e
  rw [Bool.eq_iff_iff]
  simp only [Bool.and_eq_true, decide_eq_true_eq]
  omega

/-- From such a place on only those matter that begin there or later. -/
theorem takesAway_back (above : middle ≤ place) (within : span.start ≤ middle)
    (apart : ∀ e ∈ edits, span.start ≤ e.offset → e.offset < span.stop → e.offset < middle →
      e.offset + e.length ≤ middle) :
    takesAway ⟨middle, span.stop⟩ cuts edits place = takesAway span cuts edits place := by
  rw [takesAway, takesAway]
  congr 1
  rw [Bool.eq_iff_iff, List.any_eq_true, List.any_eq_true]
  refine exists_congr fun e => and_congr_right fun mem => ?_
  have := apart e mem
  simp only [Bool.and_eq_true, decide_eq_true_eq]
  omega

/-- A rendering is what is put and left at each place of the span, one place after another, however
the cuts and edits lie to each other. At a place that no edit of the span crosses it can be
parted. -/
theorem render_placewise (ordered : ∀ cut ∈ cuts, cut.start ≤ cut.stop) :
    render code span cuts edits
        = walk code (putAt edits) (takesAway span cuts edits) span.start
          (span.stop - span.start) ∧
      ∀ middle, span.start ≤ middle → middle ≤ span.stop →
        (∀ e ∈ edits, span.start ≤ e.offset → e.offset < span.stop → e.offset < middle →
          e.offset + e.length ≤ middle) →
        render code ⟨span.start, middle⟩ cuts edits ++ render code ⟨middle, span.stop⟩ cuts edits
          = render code span cuts edits := by
  refine ⟨render_eq_walk ordered, fun middle above below apart => ?_⟩
  have front : walk code (putAt edits) (takesAway ⟨span.start, middle⟩ cuts edits) span.start
      (middle - span.start) = walk code (putAt edits) (takesAway span cuts edits) span.start
        (middle - span.start) :=
    walk_congr fun place _ inside => ⟨rfl, takesAway_front (by omega) below⟩
  have back : walk code (putAt edits) (takesAway ⟨middle, span.stop⟩ cuts edits) middle
      (span.stop - middle) = walk code (putAt edits) (takesAway span cuts edits) middle
        (span.stop - middle) :=
    walk_congr fun place inside _ => ⟨rfl, takesAway_back inside above apart⟩
  rw [render_eq_walk ordered, render_eq_walk ordered, render_eq_walk ordered, front, back,
    show span.stop - span.start = (middle - span.start) + (span.stop - middle) by omega, walk_add,
    Nat.add_sub_cancel' above]

/-- Two cuts that overlap, an edit within them, an insertion after an edit of the same place and an
edit that runs out of the span. -/
theorem render_placewise_overlapping :
    render "abcdefgh" ⟨1, 7⟩ [⟨2, 4⟩, ⟨0, 3⟩] [⟨5, 9, "Y"⟩, ⟨5, 0, "X"⟩, ⟨3, 1, "Z"⟩] = "ZeXY" ∧
      render "abcdefgh" ⟨1, 4⟩ [⟨2, 4⟩, ⟨0, 3⟩] [⟨5, 9, "Y"⟩, ⟨5, 0, "X"⟩, ⟨3, 1, "Z"⟩]
          ++ render "abcdefgh" ⟨4, 7⟩ [⟨2, 4⟩, ⟨0, 3⟩] [⟨5, 9, "Y"⟩, ⟨5, 0, "X"⟩, ⟨3, 1, "Z"⟩]
        = "ZeXY" := by
  have meaning := @render_placewise "abcdefgh" ⟨1, 7⟩ [⟨2, 4⟩, ⟨0, 3⟩]
    [⟨5, 9, "Y"⟩, ⟨5, 0, "X"⟩, ⟨3, 1, "Z"⟩] (by decide)
  have whole := meaning.1.trans (by cbv : _ = ("ZeXY" : Text))
  exact ⟨whole, (meaning.2 4 (by decide) (by decide) (by decide)).trans whole⟩

end

end Span

end JavaUnits
