import JavaUnits.Proofs.Runs
import JavaUnits.Proofs.Search
import JavaUnits.Proofs.Tree

/-!
Listings of a directory. In a tree, a listing that succeeds holds every file below the directory
whose name fits, each once, in the order of paths. So it depends on nothing but what files there
are.
-/

namespace JavaUnits

/-! ## Fronts of paths -/

namespace Text

theorem prefix_join (separator : Text) (parts more : List Text) :
    join separator parts <+: join separator (parts ++ more) := by
  induction parts with
  | nil => exact List.nil_prefix
  | cons part parts ih =>
    cases parts with
    | nil =>
      cases more with
      | nil => exact List.prefix_rfl
      | cons next more =>
        rw [List.singleton_append, join_cons_cons, List.append_assoc,
          show join separator [part] = part by simp [join]]
        exact List.prefix_append _ _
    | cons next parts =>
      rw [List.cons_append, List.cons_append, join_cons_cons, join_cons_cons]
      exact (List.prefix_append_right_inj _).2 ih

end Text

namespace Storage

variable {s : Storage} {p : Path} {l : Location}

/-- The front of a path takes no more bytes than the path, unless it is a dot. -/
theorem size_front (p : Path) (n : Nat) :
    Text.Utf8.size (p.front n).toText ≤ max 1 (Text.Utf8.size p.toText) := by
  by_cases dot : (p.front n).slashes = 0 ∧ (p.front n).parts.isEmpty = true
  · rw [Path.toText, if_pos dot]
    exact Nat.le_max_left _ _
  · have whole : ¬(p.slashes = 0 ∧ p.parts.isEmpty = true) := by
      rintro ⟨none, empty⟩
      rw [List.isEmpty_iff] at empty
      exact dot ⟨none, by simp [Path.front, empty]⟩
    rw [Path.toText, if_neg dot, Path.toText, if_neg whole]
    refine le_trans ?_ (Nat.le_max_right _ _)
    obtain ⟨more, parts⟩ := Text.prefix_join "/" (p.parts.take n) (p.parts.drop n)
    rw [List.take_append_drop] at parts
    simp only [Path.front, ← parts, Text.Utf8.size_append]
    omega

theorem locate_front (found : s.locate p = .ok l) (n : Nat) :
    s.locate (p.front n) = .ok (p.front n).place := by
  obtain ⟨short, walked⟩ := locate_eq_ok.1 found
  have shorter : Text.Utf8.size (p.front n).toText < pathLimit :=
    (size_front p n).trans_lt (max_lt (by decide) short)
  rw [← List.take_append_drop n p.parts, walk_append, JavaUnits.bind_eq_ok] at walked
  obtain ⟨m, here, -⟩ := walked
  have reached := locate_eq_ok.2 ⟨shorter, (here : s.walk [] (p.front n).parts = .ok m)⟩
  rw [reached, locate_eq_place reached]

theorem status_front (found : s.locate p = .ok l) {n : Nat} (more : n < p.parts.length) :
    s.status (p.front n) = .ok (some .directory) := by
  refine status_eq_some.2 ⟨locate_front found n, ?_⟩
  obtain ⟨-, walked⟩ := locate_eq_ok.1 found
  rw [← List.take_append_drop n p.parts, walk_append, JavaUnits.bind_eq_ok] at walked
  obtain ⟨m, here, on⟩ := walked
  have place : m = (p.front n).place := walk_eq here
  rw [List.drop_eq_getElem_cons more] at on
  rw [← place]
  exact get?_of_walk_cons on

theorem walk_of_fronts {s' : Storage} (limits : s.limits = s'.limits) {parts : List Text}
    {m : Location} (walked : s'.walk l parts = .ok m)
    (fronts : ∀ n < parts.length,
      s.get? (Path.normalParts l.reverse (parts.take n)) = some .directory) :
    s.walk l parts = .ok m := by
  induction parts generalizing l with
  | nil => exact walked
  | cons part parts ih =>
    rw [walk_cons_eq_ok] at walked ⊢
    have first := fronts 0 (by simp)
    rw [List.take_zero, Path.normalParts, List.reverse_reverse] at first
    refine ⟨enter_eq_ok.2 ⟨first, ?_⟩, ?_⟩
    · rw [limitsAt_congr limits]
      exact (enter_eq_ok.1 walked.1).2
    · have later := walked.2
      by_cases up : part = Path.parentName
      · rw [if_pos up] at later ⊢
        refine ih later fun n less => ?_
        have next := fronts (n + 1) (by simpa using less)
        rwa [List.take_succ_cons, Path.normalParts, if_pos up, List.drop_one,
          List.tail_reverse] at next
      · rw [if_neg up] at later ⊢
        refine ⟨later.1, ih later.2 fun n less => ?_⟩
        have next := fronts (n + 1) (by simpa using less)
        rwa [List.take_succ_cons, Path.normalParts, if_neg up, ← List.reverse_concat] at next

theorem locate_of_fronts {s' : Storage} (limits : s.limits = s'.limits)
    (found : s'.locate p = .ok l)
    (fronts : ∀ n < p.parts.length, s.get? (p.front n).place = some .directory) :
    s.locate p = .ok l := by
  obtain ⟨short, walked⟩ := locate_eq_ok.1 found
  exact locate_eq_ok.2 ⟨short, walk_of_fronts limits walked fronts⟩

theorem mem_children {name : Text} {e : Entry} :
    (name, e) ∈ s.children l ↔ (l ++ [name], e) ∈ s.entries := by
  rw [children, List.mem_filterMap]
  constructor
  · rintro ⟨⟨taken, e'⟩, listed, made⟩
    simp only at made
    split at made
    · rename_i last ends
      split at made
      · rename_i front
        obtain ⟨rfl, rfl⟩ := Prod.mk.inj (Option.some.inj made)
        rwa [← front, List.dropLast_append_getLast? _ ends]
      · cases made
    · cases made
  · intro listed
    exact ⟨_, listed, by simp⟩

theorem shows_view {name : Text} {kind : EntryKind} : s.view.Shows p name kind ↔
    s.status p = .ok (some .directory) ∧ (s.limitsAt p.place).listing = none ∧
      ∃ e, e.kind = kind ∧ (p.place ++ [name], e) ∈ s.entries := by
  simp only [View.Shows, view]
  constructor
  · rintro ⟨shown, listed, mem⟩
    cases found : s.list p with
    | error cause =>
      rw [found] at listed
      cases listed
    | ok entries =>
      rw [found] at listed
      obtain rfl := Except.ok.inj listed
      obtain ⟨there, allowed, rfl⟩ := list_eq_ok.1 found
      obtain ⟨⟨name', e⟩, child, same⟩ := List.mem_map.1 mem
      obtain ⟨rfl, rfl⟩ := Prod.mk.inj same
      exact ⟨there, allowed, e, rfl, mem_children.1 child⟩
  · rintro ⟨there, allowed, e, rfl, mem⟩
    rw [list_eq_ok.2 ⟨there, allowed, rfl⟩]
    exact ⟨_, rfl, List.mem_map.2 ⟨(name, e), mem_children.2 mem, rfl⟩⟩

variable {directory : Path} {down : Location}

theorem status_below_nil {content : Bytes}
    (there : s.status (directory.below down) = .ok (some (.file content)))
    (isDirectory : s.status directory = .ok (some .directory)) : down ≠ [] := by
  rintro rfl
  rw [Path.below_nil, isDirectory] at there
  cases there

theorem status_of_below (found : s.locate (directory.below down) = .ok l) {front more : Location}
    (split : down = front ++ more) (beyond : more ≠ []) :
    s.status (directory.below front) = .ok (some .directory) := by
  have same : (directory.below down).front (directory.parts ++ front).length
      = directory.below front := by
    rw [split, Path.front, Path.below, ← List.append_assoc, List.take_left, Path.below]
  rw [← same]
  refine status_front found ?_
  have := List.length_pos_iff.2 beyond
  rw [split, Path.below, List.length_append, List.length_append, List.length_append]
  omega

theorem IsRooted.leads_names (rooted : s.IsRooted) {kind : EntryKind}
    (leads : s.view.Leads directory down kind) : Path.parentName ∉ down := by
  induction down using List.reverseRecOn generalizing kind with
  | nil => exact List.not_mem_nil
  | append_singleton down name ih =>
    obtain ⟨leads, shown⟩ := View.leads_concat.1 leads
    obtain ⟨-, -, e, -, mem⟩ := shows_view.1 shown
    rw [List.mem_append, not_or]
    exact ⟨ih leads, fun last => rooted.names _ mem (List.mem_append_right _ last)⟩

/-- Where every directory on the way can be listed, names lead to what the storage holds there. -/
theorem leads_of_status (names : Path.parentName ∉ down) {e : Entry}
    (there : s.status (directory.below down) = .ok (some e)) (top : down = [] → e = .directory)
    (listed : ∀ front more, down = front ++ more → more ≠ [] →
      (s.limitsAt (directory.below front).place).listing = none) :
    s.view.Leads directory down e.kind := by
  induction down using List.reverseRecOn generalizing e with
  | nil =>
    rw [top rfl]
    exact .here directory
  | append_singleton down name ih =>
    have above := status_of_below (status_eq_some.1 there).1 rfl (List.cons_ne_nil name [])
    have below : Path.parentName ∉ down := fun mem => names (List.mem_append_left _ mem)
    refine View.leads_concat.2 ⟨ih below above (fun _ => rfl) fun front more split beyond =>
      listed front (more ++ [name]) (by rw [split, List.append_assoc]) (by simp), ?_⟩
    refine shows_view.2 ⟨above, listed down [name] rfl (List.cons_ne_nil _ _), e, rfl, ?_⟩
    have here := (status_eq_some.1 there).2
    rw [Path.place_below names, ← List.append_assoc, ← Path.place_below below] at here
    exact exists_entry here (by simp)

theorem IsTree.listing (tree : s.IsTree) (l : Location) : (s.limitsAt l).listing = none := by
  rw [limitsAt]
  cases there : s.limits.lookup l with
  | none => rfl
  | some limits =>
    obtain ⟨front, back, split, -⟩ := List.lookup_eq_some_iff.1 there
    exact tree.listed (l, limits) (by rw [split]; simp)

end Storage

/-! ## Listings -/

namespace Glob

open Storage

variable {s : Storage} {directory p : Path} {signs : List Sign}

/-- Whether there is a file at `p` that lies below the directory and whose name fits. -/
def Finds (s : Storage) (directory : Path) (signs : List Sign) (p : Path) : Prop :=
  ∃ down, p = directory.below down ∧ Path.parentName ∉ down ∧
    View.EndsIn (matchesText signs · = true) down ∧ p.hasNull = false ∧
      ∃ content, s.status p = .ok (some (.file content))

theorem Finds.isDirectory (found : Finds s directory signs p) :
    s.view.isDirectory directory = .ok true := by
  obtain ⟨down, rfl, -, ends, noNull, content, there⟩ := found
  obtain ⟨front, name, rfl, -⟩ := View.endsIn_iff.1 ends
  refine View.isDirectory_eq_true.2 ⟨?_, ?_⟩
  · rw [Path.hasNull, Path.below, List.any_append, Bool.or_eq_false_iff] at noNull
    exact noNull.1
  · have above := status_of_below (status_eq_some.1 there).1 (List.nil_append _).symm (by simp)
    rwa [Path.below_nil] at above

/-- A listing of a tree that succeeds has found every file that fits, once, in the order of
paths. -/
theorem filesBelow_eq_ok (tree : s.IsTree) {pattern : Text} {found : List Path}
    (parted : parts pattern = .ok [.pattern signs])
    (listed : filesBelow s.view directory pattern = .ok found) :
    found.Nodup ∧ found.Pairwise (fun p q => p.le q = true) ∧
      ∀ p, p ∈ found ↔ Finds s directory signs p := by
  cases there : s.view.isDirectory directory with
  | error fault =>
    rw [filesBelow, parted, ok_bind, there] at listed
    cases listed
  | ok isDirectory =>
    cases isDirectory with
    | false =>
      rw [filesBelow, parted, ok_bind, there] at listed
      obtain rfl := Except.ok.inj listed
      refine ⟨List.nodup_nil, List.Pairwise.nil, fun p => ⟨by simp, fun finds => ?_⟩⟩
      rw [finds.isDirectory] at there
      cases there
    | true =>
      obtain ⟨nodup, sorted, mem⟩ := mem_filesBelow parted there listed
      refine ⟨nodup, sorted, fun p => (mem p).trans ?_⟩
      constructor
      · rintro ⟨down, kind, rfl, leads, ends, isFile⟩
        exact ⟨down, rfl, tree.leads_names leads, ends, View.isFile_eq_true.1 isFile⟩
      · rintro ⟨down, rfl, names, ends, noNull, content, file⟩
        have leads := leads_of_status names file
          (fun top => absurd top (status_below_nil file (View.isDirectory_eq_true.1 there).2))
          fun _ _ _ _ => tree.listing _
        exact ⟨down, _, rfl, leads, ends, View.isFile_eq_true.2 ⟨noNull, content, file⟩⟩

end Glob

end JavaUnits
