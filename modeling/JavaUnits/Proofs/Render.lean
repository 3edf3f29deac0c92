import JavaUnits.Proofs.Order
import JavaUnits.Span

/-!
Rendering a text that is known stretch by stretch: each stretch stays as it is or becomes another
text. Cuts and edits that change just these stretches, in whatever order they are given, turn the
old text into the new.
-/

namespace JavaUnits.Span

def Patch.ofCut (cut : Span) : Patch :=
  ⟨cut, []⟩

def Patch.ofEdit (e : Edit) : Patch :=
  ⟨⟨e.offset, e.offset + e.length⟩, e.text⟩

/-- A stretch of a text and what becomes of it. -/
inductive Stretch where
  | stays (text : Text)
  | cut (text : Text)
  /-- An edit puts `new` for `old`, which `rest` follows. -/
  | edit (old new rest : Text)

namespace Stretch

def old : Stretch → Text
  | stays text | cut text => text
  | edit old _ rest => old ++ rest

def new : Stretch → Text
  | stays text => text
  | cut _ => []
  | edit _ new rest => new ++ rest

def before (stretches : List Stretch) : Text :=
  stretches.flatMap old

def after (stretches : List Stretch) : Text :=
  stretches.flatMap new

def changes : Stretch → Bool
  | stays _ => false
  | _ => true

def cuts (start : Nat) : List Stretch → List Span
  | [] => []
  | cut text :: rest => ⟨start, start + text.length⟩ :: cuts (start + text.length) rest
  | x :: rest => cuts (start + x.old.length) rest

def edits (start : Nat) : List Stretch → List Edit
  | [] => []
  | edit old new rest :: xs => ⟨start, old.length, new⟩ :: edits (start + (old ++ rest).length) xs
  | x :: rest => edits (start + x.old.length) rest

def patches (start : Nat) : List Stretch → List Patch
  | [] => []
  | stays text :: rest => patches (start + text.length) rest
  | cut text :: rest => ⟨⟨start, start + text.length⟩, []⟩ :: patches (start + text.length) rest
  | edit old new rest :: xs =>
    ⟨⟨start, start + old.length⟩, new⟩ :: patches (start + (old ++ rest).length) xs

variable {xs ys : List Stretch} {start : Nat}

@[simp] theorem before_nil : before [] = [] := rfl

@[simp] theorem after_nil : after [] = [] := rfl

theorem before_cons (x : Stretch) (xs : List Stretch) : before (x :: xs) = x.old ++ before xs := rfl

theorem after_cons (x : Stretch) (xs : List Stretch) : after (x :: xs) = x.new ++ after xs := rfl

theorem before_append (xs ys : List Stretch) : before (xs ++ ys) = before xs ++ before ys := by
  simp [before]

theorem after_append (xs ys : List Stretch) : after (xs ++ ys) = after xs ++ after ys := by
  simp [after]

theorem cuts_stays (start : Nat) (text : Text) (xs : List Stretch) :
    cuts start (stays text :: xs) = cuts (start + text.length) xs := rfl

theorem edits_stays (start : Nat) (text : Text) (xs : List Stretch) :
    edits start (stays text :: xs) = edits (start + text.length) xs := rfl

theorem cuts_append (start : Nat) (xs ys : List Stretch) :
    cuts start (xs ++ ys) = cuts start xs ++ cuts (start + (before xs).length) ys := by
  induction xs generalizing start with
  | nil => simp [cuts]
  | cons x xs ih => cases x <;> simp [cuts, before_cons, old, ih, Nat.add_assoc]

theorem edits_append (start : Nat) (xs ys : List Stretch) :
    edits start (xs ++ ys) = edits start xs ++ edits (start + (before xs).length) ys := by
  induction xs generalizing start with
  | nil => simp [edits]
  | cons x xs ih => cases x <;> simp [edits, before_cons, old, ih, Nat.add_assoc]

/-- Whether everything that changes stands somewhere. -/
def Sound (xs : List Stretch) : Prop :=
  ∀ x ∈ xs, x.changes = true → x.old ≠ []

theorem cuts_bounds (sound : Sound xs) {s : Span} (mem : s ∈ cuts start xs) :
    start ≤ s.start ∧ s.start < s.stop ∧ s.stop ≤ start + (before xs).length := by
  induction xs generalizing start with
  | nil => simp [cuts] at mem
  | cons x xs ih =>
    simp only [Sound, List.forall_mem_cons] at sound
    have ih (mem : s ∈ cuts (start + x.old.length) xs) := ih sound.2 mem
    rw [before_cons, List.length_append]
    cases x with
    | cut text =>
      rw [cuts, List.mem_cons] at mem
      rcases mem with rfl | mem
      · have : 0 < text.length := List.length_pos_iff.2 (sound.1 rfl)
        simp only [old]
        omega
      · have := ih mem
        simp only [old] at this ⊢
        omega
    | stays =>
      have := ih mem
      omega
    | edit =>
      have := ih mem
      omega

theorem edits_bounds (sound : Sound xs) {e : Edit} (mem : e ∈ edits start xs) :
    start ≤ e.offset ∧ e.offset < start + (before xs).length := by
  induction xs generalizing start with
  | nil => simp [edits] at mem
  | cons x xs ih =>
    simp only [Sound, List.forall_mem_cons] at sound
    have ih (mem : e ∈ edits (start + x.old.length) xs) := ih sound.2 mem
    rw [before_cons, List.length_append]
    cases x with
    | edit old new rest =>
      rw [edits, List.mem_cons] at mem
      rcases mem with rfl | mem
      · have : 0 < (old ++ rest).length := List.length_pos_iff.2 (sound.1 rfl)
        simp only [Stretch.old]
        omega
      · have := ih mem
        simp only [Stretch.old] at this ⊢
        omega
    | stays =>
      have := ih mem
      omega
    | cut =>
      have := ih mem
      omega

theorem start_le_of_mem_patches {p : Patch} (mem : p ∈ patches start xs) :
    start ≤ p.span.start := by
  induction xs generalizing start with
  | nil => simp [patches] at mem
  | cons x xs ih =>
    cases x with
    | stays text =>
      have := ih mem
      omega
    | cut text =>
      rw [patches, List.mem_cons] at mem
      rcases mem with rfl | mem
      · exact Nat.le_refl _
      · have := ih mem
        omega
    | edit old new rest =>
      rw [patches, List.mem_cons] at mem
      rcases mem with rfl | mem
      · exact Nat.le_refl _
      · have := ih mem
        omega

theorem pairwise_patches (sound : Sound xs) :
    (patches start xs).Pairwise fun p q => p.span.start < q.span.start := by
  induction xs generalizing start with
  | nil => simp [patches]
  | cons x xs ih =>
    simp only [Sound, List.forall_mem_cons] at sound
    cases x with
    | stays text => exact ih sound.2
    | cut text =>
      have more : 0 < text.length := List.length_pos_iff.2 (sound.1 rfl)
      refine List.pairwise_cons.2 ⟨fun p mem => ?_, ih sound.2⟩
      have := start_le_of_mem_patches mem
      simp only
      omega
    | edit old new rest =>
      have more : 0 < (old ++ rest).length := List.length_pos_iff.2 (sound.1 rfl)
      refine List.pairwise_cons.2 ⟨fun p mem => ?_, ih sound.2⟩
      have := start_le_of_mem_patches mem
      simp only
      omega

theorem perm_patches (start : Nat) (xs : List Stretch) :
    ((cuts start xs).map Patch.ofCut ++ (edits start xs).map Patch.ofEdit).Perm
      (patches start xs) := by
  induction xs generalizing start with
  | nil => simp [cuts, edits, patches]
  | cons x xs ih =>
    cases x with
    | stays text => exact ih _
    | cut text => exact (ih _).cons _
    | edit old new rest =>
      refine List.Perm.trans ?_ ((ih _).cons _)
      exact List.perm_middle

end Stretch

open Stretch

variable {code : Text} {xs : List Stretch}

theorem slice_of_append (front middle back : Text) {stop : Nat}
    (whole : stop = front.length + middle.length) :
    (front ++ (middle ++ back)).slice front.length stop = middle := by
  subst whole
  rw [Text.slice, ← List.append_assoc, List.take_left' (by simp), List.drop_left]

/-- The sweep may lag behind the stretches, by text that stays. -/
theorem sweep_patches {code : Text} (front lag back : Text) (xs : List Stretch)
    (whole : code = front ++ (lag ++ (before xs ++ back))) :
    sweep code (front.length + lag.length + (before xs).length) front.length
      (Stretch.patches (front.length + lag.length) xs) = lag ++ after xs := by
  induction xs generalizing front lag with
  | nil =>
    subst whole
    simp only [Stretch.patches, sweep, before_nil, after_nil, List.length_nil, Nat.add_zero,
      List.append_nil, List.nil_append]
    exact slice_of_append front lag back rfl
  | cons x xs ih =>
    have lagging : code.slice front.length (front.length + lag.length) = lag := by
      rw [whole]
      exact slice_of_append front lag _ rfl
    cases x with
    | stays text =>
      have ih := ih front (lag ++ text) (by simpa [before_cons, old] using whole)
      simpa [Stretch.patches, before_cons, after_cons, old, new, Nat.add_assoc] using ih
    | cut text =>
      have ih := ih (front ++ lag ++ text) [] (by simpa [before_cons, old] using whole)
      simp only [Stretch.patches, sweep]
      rw [Nat.max_eq_left (by omega), lagging, Nat.max_eq_right (by omega)]
      simp only [before_cons, after_cons, old, new, List.length_append, List.append_assoc,
        Nat.add_assoc, List.length_nil, Nat.add_zero, List.nil_append] at ih ⊢
      rw [ih]
    | edit old new rest =>
      have ih := ih (front ++ lag ++ old) rest (by simpa [before_cons, Stretch.old] using whole)
      simp only [Stretch.patches, sweep]
      rw [Nat.max_eq_left (by omega), lagging, Nat.max_eq_right (by omega)]
      simp only [before_cons, after_cons, Stretch.old, Stretch.new, List.length_append,
        List.append_assoc, Nat.add_assoc] at ih ⊢
      rw [ih]

theorem patch_le_iff {p q : Patch} : p.le q = true ↔
    p.span.start < q.span.start ∨ p.span.start = q.span.start ∧
      (p.span.stop < q.span.stop ∨ p.span.stop = q.span.stop ∧ p.text.le q.text = true) := by
  simp [Patch.le]

theorem patch_le_total (p q : Patch) : (p.le q || q.le p) = true := by
  have texts := Text.le_total p.text q.text
  rw [Bool.or_eq_true] at texts ⊢
  rw [patch_le_iff, patch_le_iff]
  grind

theorem patch_le_trans {p q r : Patch} (first : p.le q = true) (second : q.le r = true) :
    p.le r = true := by
  have texts : p.text.le q.text = true → q.text.le r.text = true → p.text.le r.text = true :=
    Text.le_trans
  rw [patch_le_iff] at *
  grind

theorem patch_le_antisymm {p q : Patch} (le : p.le q = true) (ge : q.le p = true) : p = q := by
  have texts : p.text.le q.text = true → q.text.le p.text = true → p.text = q.text :=
    Text.le_antisymm
  obtain ⟨⟨start, stop⟩, text⟩ := p
  obtain ⟨⟨start', stop'⟩, text'⟩ := q
  rw [patch_le_iff] at le ge
  simp only [Patch.mk.injEq, mk.injEq] at *
  grind

theorem pairwise_mergeSort_patches (ps : List Patch) :
    (ps.mergeSort Patch.le).Pairwise fun p q => p.le q = true :=
  List.pairwise_mergeSort (fun p q r => patch_le_trans (p := p) (q := q) (r := r))
    patch_le_total ps

theorem mergeSort_patches {given sorted : List Patch} (same : given.Perm sorted)
    (ascending : sorted.Pairwise fun p q => p.span.start < q.span.start) :
    given.mergeSort Patch.le = sorted := by
  have ordered : sorted.Pairwise fun p q => p.le q = true := by
    apply ascending.imp
    intro p q less
    simp [Patch.le, less]
  exact ((List.mergeSort_perm given Patch.le).trans same).eq_of_pairwise
    (fun _ _ _ _ => patch_le_antisymm) (pairwise_mergeSort_patches given) ordered

/-- Cuts all over a text and edits of one part of it turn just this part into the new one. -/
theorem render_stretches (xs ys zs : List Stretch) (sound : Sound (xs ++ (ys ++ zs))) :
    render (before (xs ++ (ys ++ zs)))
      ⟨(before xs).length, (before xs).length + (before ys).length⟩
      (cuts 0 (xs ++ (ys ++ zs))) (edits (before xs).length ys) = after ys := by
  simp only [Sound, List.mem_append] at sound
  have soundXs : Sound xs := fun x mem => sound x (.inl mem)
  have soundYs : Sound ys := fun x mem => sound x (.inr (.inl mem))
  have soundZs : Sound zs := fun x mem => sound x (.inr (.inr mem))
  have inside : (cuts 0 (xs ++ (ys ++ zs))).filter (fun cut =>
      cut.start < (before xs).length + (before ys).length && (before xs).length < cut.stop)
      = cuts (before xs).length ys := by
    rw [cuts_append, cuts_append, List.filter_append, List.filter_append, Nat.zero_add,
      List.filter_eq_nil_iff.2, List.filter_eq_self.2, List.filter_eq_nil_iff.2]
    · simp
    · intro cut mem
      have := cuts_bounds soundZs mem
      simp only [Bool.and_eq_true, decide_eq_true_eq]
      omega
    · intro cut mem
      have := cuts_bounds soundYs mem
      simp only [Bool.and_eq_true, decide_eq_true_eq]
      omega
    · intro cut mem
      have := cuts_bounds soundXs mem
      simp only [Bool.and_eq_true, decide_eq_true_eq]
      omega
  have begun : (edits (before xs).length ys).filter (fun e =>
      (before xs).length ≤ e.offset && e.offset < (before xs).length + (before ys).length)
      = edits (before xs).length ys := by
    rw [List.filter_eq_self]
    intro e mem
    have := edits_bounds soundYs mem
    simp only [Bool.and_eq_true, decide_eq_true_eq]
    omega
  have found := mergeSort_patches (perm_patches (before xs).length ys) (pairwise_patches soundYs)
  have swept := @sweep_patches (before (xs ++ (ys ++ zs))) (before xs) [] (before zs) ys
    (by simp [before_append])
  simp only [List.length_nil, Nat.add_zero, List.nil_append] at swept
  rw [render, patches, inside, begun]
  exact (congrArg _ found).trans swept

end JavaUnits.Span
