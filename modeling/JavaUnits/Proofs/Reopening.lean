import Mathlib.Data.List.Nodup
import JavaUnits.Proofs.Confinement
import JavaUnits.Proofs.SplitRuns

/-!
Workspaces that are opened again. Once a workspace has been opened for editing, its split files are
the user's: whatever is asked of it without override, nothing below the split directory changes, and
it is opened with the same files. This is so as long as the workspace's extension finds every file
that a merge takes up, and the submission lies beside the split directory and not in it.
-/

namespace JavaUnits

namespace Storage

variable {p : Path} {s s' s'' : Storage}

/-- Whether the system refuses what it refused. -/
def KeepsLimits (s s' : Storage) : Prop :=
  s'.limits = s.limits

theorem keepsLimits_refl (s : Storage) : s.KeepsLimits s :=
  rfl

theorem KeepsLimits.trans (first : s.KeepsLimits s') (later : s'.KeepsLimits s'') :
    s.KeepsLimits s'' :=
  Eq.trans later first

/-- Whether nothing is different but what files hold. -/
structure Alike (s s' : Storage) : Prop where
  limits : s'.limits = s.limits
  place : ∀ l, s'.get? l = s.get? l ∨
    ∃ content content', s.get? l = some (.file content) ∧ s'.get? l = some (.file content')

theorem alike_of_same (limits : s'.limits = s.limits) (same : ∀ l, s'.get? l = s.get? l) :
    s.Alike s' :=
  ⟨limits, fun l => .inl (same l)⟩

theorem alike_put {l : Location} {content : Bytes} (there : s.get? l = some (.file content))
    (content' : Bytes) : s.Alike (s.put l (.file content')) := by
  refine ⟨rfl, fun m => ?_⟩
  by_cases same : m = l
  · subst same
    have root : m ≠ [] := by
      rintro rfl
      cases there
    exact .inr ⟨content, content', there, get?_put_self root s _⟩
  · exact .inl (get?_put_of_ne same s _)

theorem Alike.symm (alike : s.Alike s') : s'.Alike s := by
  refine ⟨alike.limits.symm, fun l => ?_⟩
  rcases alike.place l with same | ⟨content, content', there, now⟩
  · exact .inl same.symm
  · exact .inr ⟨content', content, now, there⟩

theorem Alike.trans (first : s.Alike s') (later : s'.Alike s'') : s.Alike s'' := by
  refine ⟨later.limits.trans first.limits, fun l => ?_⟩
  rcases first.place l with same | ⟨content, content', there, now⟩ <;>
    rcases later.place l with same' | ⟨old, new, there', now'⟩
  · exact .inl (same'.trans same)
  · exact .inr ⟨old, new, same ▸ there', now'⟩
  · exact .inr ⟨content, content', there, same' ▸ now⟩
  · exact .inr ⟨content, new, there, now'⟩

theorem Alike.keeps (alike : s.Alike s') : s.KeepsDirectories s' := by
  refine ⟨alike.limits, fun l there => ?_⟩
  rcases alike.place l with same | ⟨content, content', never, -⟩
  · rw [same, there]
  · rw [there] at never
    cases never

theorem Alike.status_directory (alike : s.Alike s')
    (there : s.status p = .ok (some .directory)) : s'.status p = .ok (some .directory) :=
  status_of_keeps alike.keeps there (alike.keeps.directory _ (status_eq_some.1 there).2)

theorem Alike.status_file (alike : s.Alike s') {content : Bytes}
    (there : s.status p = .ok (some (.file content))) :
    ∃ content', s'.status p = .ok (some (.file content')) := by
  have here := (status_eq_some.1 there).2
  rcases alike.place p.place with same | ⟨-, content', -, now⟩
  · exact ⟨content, status_of_keeps alike.keeps there (same.trans here)⟩
  · exact ⟨content', status_of_keeps alike.keeps there now⟩

theorem Alike.finds (alike : s.Alike s') {directory : Path} {signs : List Glob.Sign}
    (found : Glob.Finds s directory signs p) : Glob.Finds s' directory signs p := by
  obtain ⟨down, same, names, fits, noNull, content, there⟩ := found
  exact ⟨down, same, names, fits, noNull, alike.status_file there⟩

/-- Whether nothing is different but what the file at `p` holds, when there is something at `p`. -/
def Rewrites (p : Path) (s s' : Storage) : Prop :=
  ∀ e, s.status p = .ok (some e) → s.Alike s' ∧ ∀ l ≠ p.place, s'.get? l = s.get? l

theorem rewrites_refl (p : Path) (s : Storage) : s.Rewrites p s :=
  fun _ _ => ⟨alike_of_same rfl fun _ => rfl, fun _ _ => rfl⟩

theorem Alike.status (alike : s.Alike s') {e : Entry} (there : s.status p = .ok (some e)) :
    ∃ e', s'.status p = .ok (some e') := by
  cases e with
  | directory => exact ⟨_, alike.status_directory there⟩
  | file content =>
    obtain ⟨content', now⟩ := alike.status_file there
    exact ⟨_, now⟩

theorem Rewrites.trans (first : s.Rewrites p s') (later : s'.Rewrites p s'') :
    s.Rewrites p s'' := by
  intro e there
  obtain ⟨alike, same⟩ := first e there
  obtain ⟨e', there'⟩ := alike.status there
  obtain ⟨alike', same'⟩ := later e' there'
  exact ⟨alike.trans alike', fun l other => (same' l other).trans (same l other)⟩

theorem status_parent {e : Entry} (there : s.status p = .ok (some e)) :
    s.status p.parent = .ok (some .directory) := by
  obtain ⟨found, here⟩ := status_eq_some.1 there
  have parent : p.parent = p.front (p.parts.length - 1) := by
    rw [Path.parent, Path.front, List.dropLast_eq_take]
  by_cases root : p.parts = []
  · have same : p.parent = p := by
      obtain ⟨slashes, parts⟩ := p
      simp_all [Path.parent]
    rw [same]
    refine status_eq_some.2 ⟨found, ?_⟩
    have top : p.place = [] := by
      rw [Path.place, Path.normal, root]
      rfl
    rw [top]
    rfl
  · rw [parent]
    exact status_front found (Nat.sub_lt (List.length_pos_iff.2 root) Nat.one_pos)

end Storage

namespace Action

open Storage

variable {p : Path}

theorem keepsLimits_makeDirectories (p : Path) : (makeDirectories p).Keeps KeepsLimits :=
  fun s => (growsTo_makeDirectories p s).limits

theorem rewrites_makeDirectories (p : Path) : (makeDirectories p.parent).Keeps (Rewrites p) := by
  intro s e there
  have same := get?_makeDirectories (status_parent there)
  exact ⟨alike_of_same (growsTo_makeDirectories _ s).limits same, fun l _ => same l⟩

theorem rewrites_put (s : Storage) (content : Bytes) (found : s.writable p = .ok p.place) :
    s.Rewrites p (s.put p.place (.file content)) := by
  intro e there
  obtain ⟨-, free, -⟩ := writable_eq_ok.1 found
  refine ⟨?_, fun l other => get?_put_of_ne other s _⟩
  cases e with
  | directory => exact absurd (status_eq_some.1 there).2 free
  | file old => exact alike_put (status_eq_some.1 there).2 content

theorem removeTree_eq_ok {s s' : Storage} (below : p.place ≠ [])
    (ran : (removeTree p).run.run s = (.ok (), s')) : s'.get? p.place = none := by
  obtain ⟨_, -, ran⟩ := (isReading_checkPath p).bind_eq_ok ran
  rw [run_get_bind] at ran
  split at ran
  · exact absurd ran throw_ne_ok
  · rw [run_get_bind] at ran
    split at ran
    · exact absurd ran throw_ne_ok
    · exact absurd ran throw_ne_ok
    · rw [run_get_bind] at ran
      split at ran
      · obtain ⟨_, _, never, -⟩ := Action.bind_eq_ok ran
        exact absurd never throw_ne_ok
      · rw [run_get_bind] at ran
        obtain ⟨_, m, -, ran⟩ := Action.bind_eq_ok ran
        rw [run_get_bind] at ran
        split at ran
        · exact absurd ran throw_ne_ok
        · rename_i l found
          obtain rfl := locate_eq_place found
          rw [run_get_bind] at ran
          split at ran
          · obtain ⟨_, _, never, -⟩ := Action.bind_eq_ok ran
            exact absurd never throw_ne_ok
          · obtain rfl : s' = m.erase p.place := (Prod.mk.inj ran).2.symm
            rw [get?_erase m _ below, if_pos (List.isPrefixOf_iff_prefix.2 List.prefix_rfl)]

end Action

namespace Action

open Storage

theorem run_discard {α : Type} (action : Action α) (s : Storage) :
    ((discard action).run.run s).2 = (action.run.run s).2 := by
  have mapped : (discard action).run.run s
      = (action >>= fun _ => (pure () : Action Unit)).run.run s := rfl
  rw [mapped, run_bind]
  rcases action.run.run s with ⟨fault | a, m⟩ <;> rfl

theorem mergeDirectory_of_bare {directory : Path} {s : Storage} (tree : s.IsTree)
    (nothing : ∀ p, ¬ Glob.Finds s directory Glob.sourceSigns p) (target : Path)
    (configured : Text) (asked : Option Text) :
    ∃ fault, (mergeDirectory configured directory target asked).run.run s = (.error fault, s) := by
  rw [run_mergeDirectory]
  cases surveyed : s.view.survey configured directory asked with
  | error fault => exact ⟨fault, rfl⟩
  | ok merged =>
    obtain ⟨files, gathered, -⟩ := JavaUnits.bind_eq_ok.1 surveyed
    obtain ⟨paths, listed, more, -⟩ := View.gather_eq_ok gathered
    obtain ⟨-, -, mem⟩ := Glob.filesBelow_eq_ok tree Glob.parts_source listed
    exact absurd (List.eq_nil_iff_forall_not_mem.2 fun p => by simp [mem, nothing]) more

theorem get?_splitFile_of_bare {source directory : Path} {s : Storage}
    (unsplit : ∀ text parts, s.HoldsSource source text → split text = .ok parts → parts.files = [])
    (there : s.status directory = .ok (some .directory)) (l : Location) :
    ((splitFile source directory).run.run s).2.get? l = s.get? l := by
  refine IsReading.bind_cases (P := fun ran => ran.2.get? l = s.get? l)
    (isReading_ask _) (fun _ => rfl) fun isFile _ => ?_
  cases isFile with
  | false => rfl
  | true =>
    refine IsReading.bind_cases (P := fun ran => ran.2.get? l = s.get? l)
      (isReading_ask _) (fun _ => rfl) fun text found => ?_
    cases splits : split text with
    | error e => rfl
    | ok parts =>
      have made := get?_makeDirectories there l
      simp only [unsplit text parts (readSource_eq_ok found).2 splits, List.map_nil]
      rw [run_bind, run_wrapErrors]
      rcases ran : (makeDirectories directory).run.run s with ⟨fault | _, m⟩ <;> rw [ran] at made
      · cases fault <;> exact made
      · exact made

end Action

namespace Path

variable {p : Path}

theorem child_name (more : p.parts ≠ []) : p.parent.child p.name = p := by
  obtain ⟨slashes, parts⟩ := p
  rw [child, parent, name, List.getLast?_eq_some_getLast more, Option.getD_some,
    List.dropLast_append_getLast]

theorem front_beside (p : Path) (name : Text) (more : List Text) {n : Nat}
    (less : n < p.parts.length) :
    (⟨p.slashes, (p.parent.child name).parts ++ more⟩ : Path).front n = p.front n := by
  rw [child, parent, front, front, List.append_assoc, List.take_append_of_le_length,
    List.dropLast_eq_take, List.take_take, Nat.min_eq_left (by omega)]
  rw [List.length_dropLast]
  omega

theorem slashes_beside (p : Path) (name : Text) : (p.parent.child name).slashes = p.slashes :=
  rfl

theorem length_beside (p : Path) (name : Text) (more : p.parts ≠ []) :
    (p.parent.child name).parts.length = p.parts.length := by
  have := List.length_pos_iff.2 more
  rw [child, parent, List.length_append, List.length_dropLast, List.length_singleton]
  omega

end Path

namespace Workspace

open Action Storage

variable {w : Workspace} {s s' : Storage}

/-- Whether the extension of the workspace finds every file that a merge takes up. -/
def FindsSources (w : Workspace) : Prop :=
  ∀ parts, Glob.parts (CodePoint.ofChar '*' :: w.extension) = .ok parts →
    ∃ signs, parts = [.pattern signs] ∧
      ∀ t : Text, Glob.matchesText signs (t ++ sourceExtension) = true

theorem findsSources_of_eq (same : w.extension = sourceExtension) : w.FindsSources := by
  intro parts parted
  rw [same, Glob.parts_source] at parted
  exact ⟨_, (Except.ok.inj parted).symm, fun t => Glob.matchesText_source.2 ⟨t, rfl⟩⟩

theorem splitDirectory_eq_child (splittable : w.isSplittable = true)
    (apart : ¬ w.splitDirectory.place <+: w.path.place) :
    w.splitDirectory = w.path.parent.child w.path.stem ∧ w.path.stem ≠ Path.parentName ∧
      w.path.parts ≠ [] ∧ w.path.name ≠ Path.parentName := by
  obtain ⟨first, rest, same, -, -, noSlash⟩ := w.name_mem_path
  have more : w.path.parts ≠ [] := by simp [same]
  have named : w.path.name ≠ Path.parentName := by
    intro up
    have plain : w.path.suffix = [] := by
      rw [Path.suffix, Path.splitName, up]
      decide
    rw [isSplittable, Language.ofPath?, plain] at splittable
    exact absurd splittable (by decide)
  have place : w.path.place = w.path.parent.place ++ [w.path.name] := by
    conv_lhs => rw [← Path.child_name more]
    exact Path.place_child named _
  have relative := w.splitDirectory_parts
  rw [Path.partsOf_of_notMem noSlash] at relative
  split at relative
  · refine absurd ?_ apart
    rw [relative, place, List.append_nil]
    exact List.prefix_append _ _
  · refine ⟨by rw [relative, Path.child, Path.parent], fun up => apart ?_, more, named⟩
    rw [relative, up, place, Path.place_append w.path.slashes w.path.slashes]
    refine List.IsPrefix.trans ?_ (List.prefix_append _ _)
    rw [Path.normalParts, if_pos rfl, Path.normalParts]
    rw [List.drop_one, List.tail_reverse, List.reverse_reverse]
    exact List.dropLast_prefix _

theorem limits_run (w : Workspace) (op : Operation) (s : Storage) :
    ((op.run w).run.run s).2.limits = s.limits := by
  have keeps : (op.run w).Keeps KeepsLimits :=
    keeps_run keepsLimits_refl (@KeepsLimits.trans) (keepsLimits_makeDirectories _)
      (fun _ _ _ => rfl) (keepsLimits_makeDirectories _) (fun _ _ _ _ _ => rfl)
      (keeps_removeTree keepsLimits_refl (@KeepsLimits.trans) fun _ _ _ => rfl) op
  exact keeps s

/-! ## Opening -/

theorem splitFiles_eq_ok {files : List Path} (tree : s.IsTree) (finds : w.FindsSources)
    (ran : w.splitFiles.run.run s = (.ok files, s')) :
    files.Nodup ∧ files.Pairwise (fun p q => p.le q = true) ∧
      (∀ signs, Glob.parts (CodePoint.ofChar '*' :: w.extension) = .ok [.pattern signs] →
        ∀ p, p ∈ files ↔ Glob.Finds s w.splitDirectory signs p) ∧
      (files = [] → ∀ p, ¬ Glob.Finds s w.splitDirectory Glob.sourceSigns p) ∧
      (files ≠ [] → s.status w.splitDirectory = .ok (some .directory)) := by
  obtain ⟨there, looked, ran⟩ := (isReading_ask _).bind_eq_ok ran
  cases there with
  | false =>
    obtain rfl := (Action.pure_eq_ok ran).1
    have nothing {signs : List Glob.Sign} {p : Path} :
        ¬ Glob.Finds s w.splitDirectory signs p := by
      intro found
      have asked : s.view.isDirectory w.splitDirectory = .ok false := (ask_eq_ok looked).1
      rw [found.isDirectory] at asked
      cases asked
    exact ⟨List.nodup_nil, List.Pairwise.nil, fun signs _ p => by simp [nothing],
      fun _ p => nothing, by simp⟩
  | true =>
    rw [if_pos rfl] at ran
    have listed : s.view.listSources w.splitDirectory w.extension = .ok files :=
      (ask_eq_ok ran).1
    obtain ⟨ps, parted⟩ := Glob.exists_parts listed
    obtain ⟨signs, rfl, sources⟩ := finds ps parted
    obtain ⟨nodup, sorted, mem⟩ := Glob.filesBelow_eq_ok tree parted listed
    refine ⟨nodup, sorted, fun signs' parted' => ?_, fun empty p found => ?_,
      fun _ => (isDirectory_eq_true looked).2⟩
    · rw [parted, Except.ok.injEq, List.cons.injEq, Glob.Part.pattern.injEq] at parted'
      rwa [← parted'.1]
    · obtain ⟨down, same, names, ends, there⟩ := found
      obtain ⟨front, name, split, fits⟩ := View.endsIn_iff.1 ends
      obtain ⟨t, rfl⟩ := Glob.matchesText_source.1 fits
      have listed := (mem p).2 ⟨down, same, names,
        View.endsIn_iff.2 ⟨front, _, split, sources t⟩, there⟩
      rw [empty] at listed
      cases listed

/-- A workspace that has been opened with its split files. -/
structure Opened (w : Workspace) (files : List Path) (s : Storage) : Prop where
  tree : s.IsTree
  noNull : w.path.hasNull = false
  submission : ∃ e, s.status w.path = .ok (some e)
  directory : s.status w.splitDirectory = .ok (some .directory)
  nodup : files.Nodup
  sorted : files.Pairwise fun p q => p.le q = true
  finds : ∀ signs, Glob.parts (CodePoint.ofChar '*' :: w.extension) = .ok [.pattern signs] →
    ∀ p, p ∈ files ↔ Glob.Finds s w.splitDirectory signs p
  /-- Without split files there is nothing to merge and nothing to split. -/
  bare : files = [] → (∀ p, ¬ Glob.Finds s w.splitDirectory Glob.sourceSigns p) ∧
    ∀ text parts, s.HoldsSource w.path text → split text = .ok parts → parts.files = []

theorem create_eq_ok {override made : Bool}
    (ran : (w.create override).run.run s = (.ok made, s')) :
    ∃ e, s'.status w.path = .ok (some e) := by
  obtain ⟨there, looked, ran⟩ := (isReading_ask (·.exists? w.path)).bind_eq_ok ran
  split at ran
  · rename_i kept
    obtain ⟨-, rfl⟩ := Action.pure_eq_ok ran
    rw [(Bool.and_eq_true_iff.1 kept).1] at looked
    exact (exists?_eq_true looked).2
  · obtain ⟨_, m, -, ran⟩ := Action.bind_eq_ok ran
    obtain ⟨_, m', written, ran⟩ := Action.bind_eq_ok ran
    obtain ⟨-, rfl⟩ := Action.pure_eq_ok ran
    obtain ⟨content, -, -, there⟩ := status_of_write written
    exact ⟨_, there⟩

theorem clear_eq_ok {override : Bool} (below : w.splitDirectory.place ≠ [])
    (ran : (w.clear override).run.run s = (.ok (), s')) :
    s' = s ∨ s'.status w.splitDirectory ≠ .ok (some .directory) := by
  rw [clear] at ran
  split at ran
  · obtain ⟨there, -, ran⟩ := (isReading_ask _).bind_eq_ok ran
    split at ran
    · refine .inr fun there => ?_
      have := (status_eq_some.1 there).2
      rw [removeTree_eq_ok below ran] at this
      cases this
    · exact .inl (Action.pure_eq_ok ran).2
  · exact .inl (Action.pure_eq_ok ran).2

section

variable {text : Text} {parts : SplitFiles} {m : Storage}
  (splittable : w.isSplittable = true) (apart : ¬ w.splitDirectory.place <+: w.path.place)
  (splits : split text = .ok parts)
  (made : (makeDirectories w.splitDirectory).run.run s = (.ok (), m))
  (written : (writeAll (parts.files.map fun file =>
    (w.splitDirectory.child file.1, file.2))).run.run m = (.ok (), s'))
include splittable apart splits made written

theorem finds_of_split (tree : s.IsTree) {e : Entry} (there : s.status w.path = .ok (some e))
    {signs : List Glob.Sign} {p : Path} (found : Glob.Finds s' w.splitDirectory signs p) :
    p ∈ parts.files.names.map w.splitDirectory.child ∨
      Glob.Finds s w.splitDirectory signs p := by
  rcases Action.finds_of_split splits made written found with here | ⟨-, same⟩
  · exact .inl here
  · right
    obtain ⟨down, rfl, names, fits, noNull, content, file⟩ := found
    obtain ⟨located, file⟩ := status_eq_some.1 file
    rw [file, Path.place_below names] at same
    refine ⟨down, rfl, names, fits, noNull, content, ?_⟩
    refine status_eq_some.2 ⟨?_, by rw [Path.place_below names, same]⟩
    refine locate_of_fronts (limits_of_split made written).symm located fun n less => ?_
    obtain ⟨child, -, more, -⟩ := splitDirectory_eq_child splittable apart
    have length : w.splitDirectory.parts.length = w.path.parts.length := by
      rw [child, Path.length_beside _ _ more]
    have slashes : w.splitDirectory.slashes = w.path.slashes := by
      rw [child, Path.slashes_beside]
    by_cases before : n < w.path.parts.length
    · -- Up to the parent the way is that to the submission.
      have front := w.path.front_beside w.path.stem down before
      rw [← child] at front
      rw [Path.below, slashes, front]
      exact (status_eq_some.1 (status_front (status_eq_some.1 there).1 before)).2
    · obtain ⟨k, rfl⟩ : ∃ k, n = w.splitDirectory.parts.length + k :=
        ⟨n - w.splitDirectory.parts.length, by omega⟩
      have inside : k < down.length := by
        rw [Path.below, List.length_append] at less
        omega
      have below : Path.parentName ∉ down.take k := fun mem => names (List.mem_of_mem_take mem)
      have front : (w.splitDirectory.below down).front (w.splitDirectory.parts.length + k)
          = w.splitDirectory.below (down.take k) := by
        rw [Path.front, Path.below, List.take_length_add_append, Path.below]
      rw [front, Path.place_below below]
      refine tree.get?_of_append (m := down.drop k) ?_ (e := .file content) ?_
      · simpa using inside
      · rw [List.append_assoc, List.take_append_drop]
        exact same

end

section

variable {files : List Path} (tree : s.IsTree) (finds : w.FindsSources)
  (splittable : w.isSplittable = true) (apart : ¬ w.splitDirectory.place <+: w.path.place)
include tree finds splittable apart

theorem opened_of_splitFile (noNull : w.path.hasNull = false)
    (none : ∀ signs, Glob.parts (CodePoint.ofChar '*' :: w.extension) = .ok [.pattern signs] →
      ∀ p, ¬ Glob.Finds s w.splitDirectory signs p)
    (nothing : ∀ p, ¬ Glob.Finds s w.splitDirectory Glob.sourceSigns p)
    (ran : (splitFile w.path w.splitDirectory).run.run s = (.ok files, s')) :
    w.Opened (Path.sort files) s' := by
  have tree' : s'.IsTree := by
    have keeps := keepsTree_splitFile w.path w.splitDirectory s
    rw [ran] at keeps
    exact keeps tree
  obtain ⟨text, parts, m, holds, splits, made, written, rfl⟩ := splitFile_eq_ok ran
  have perm : (Path.sort (parts.files.names.map w.splitDirectory.child)).Perm _ :=
    List.mergeSort_perm _ Path.le
  have keeps := keepsDirectories_writeAll
    (parts.files.map fun file => (w.splitDirectory.child file.1, file.2)) m
  have grows := growsTo_makeDirectories w.splitDirectory s
  rw [written] at keeps
  rw [made] at grows
  obtain ⟨content, raw, there, decoded, rfl⟩ := holds
  have same : s'.get? w.path.place = s.get? w.path.place := by
    rcases get?_of_split splits made written w.path.place with ⟨name, -, inside⟩ | same | ⟨none, -⟩
    · rw [inside] at apart
      exact absurd (List.prefix_append _ _) apart
    · exact same
    · rw [(status_eq_some.1 there).2] at none
      cases none
  have submission : s'.status w.path = .ok (some (.file content)) :=
    status_of_keeps (grows.keeps.trans keeps) there (same.trans (status_eq_some.1 there).2)
  have mem {signs : List Glob.Sign}
      (fits : ∀ t : Text, Glob.matchesText signs (t ++ sourceExtension) = true)
      (before : ∀ p, ¬ Glob.Finds s w.splitDirectory signs p) (p : Path) :
      p ∈ Path.sort (parts.files.names.map w.splitDirectory.child) ↔
        Glob.Finds s' w.splitDirectory signs p := by
    rw [perm.mem_iff]
    constructor
    · intro listed
      obtain ⟨name, named, rfl⟩ := List.mem_map.1 listed
      exact finds_child splits written fits named
    · intro found
      rcases finds_of_split splittable apart splits made written tree there found with
        here | earlier
      · exact here
      · exact absurd earlier (before p)
  exact {
    tree := tree'
    noNull := noNull
    submission := ⟨_, submission⟩
    directory := by
      have there := makeDirectories_eq_ok made
      exact status_of_keeps keeps there (keeps.directory _ (status_eq_some.1 there).2)
    nodup := by
      rw [perm.nodup_iff]
      refine (nodup_names_of_split splits).map fun name name' same => ?_
      simpa [Path.child] using same
    sorted := Path.pairwise_sort _
    finds := fun signs parted => by
      obtain ⟨signs', same, fits⟩ := finds _ parted
      obtain rfl : signs = signs' := by simpa using same
      exact mem fits (none signs parted)
    bare := fun empty => by
      refine ⟨fun p found => ?_, fun text' parts' holds' splits' => ?_⟩
      · have listed := (mem (fun t => Glob.matchesText_source.2 ⟨t, rfl⟩) nothing p).2 found
        rw [empty] at listed
        cases listed
      · have holds : s'.HoldsSource w.path raw.unifyBreaks :=
          ⟨content, raw, submission, decoded, rfl⟩
        rw [holds.unique holds', splits, Except.ok.injEq] at splits'
        rw [← splits']
        rw [empty] at perm
        simpa [Files.names] using perm.symm.eq_nil }

theorem opened_openForEditing {override : Bool}
    (ran : (w.openForEditing override).run.run s = (.ok files, s')) : w.Opened files s' := by
  rw [openForEditing_eq] at ran
  obtain ⟨_, checked, ran⟩ := (isReading_checkPath w.path).bind_eq_ok ran
  have noNull := checkPath_eq_ok checked
  obtain ⟨_, m, created, ran⟩ := Action.bind_eq_ok ran
  simp only [splittable, Bool.not_true, Bool.false_eq_true, if_false] at ran
  obtain ⟨_, m', cleared, ran⟩ := Action.bind_eq_ok ran
  have keeps := keeps_create keepsTree_refl (@KeepsTree.trans)
    (keepsTree_makeDirectories w.path.parent) keepsTree_put override s
  have keeps' := keeps_clear keepsTree_refl (@KeepsTree.trans)
    (keepsTree_removeTree w.splitDirectory) override m
  rw [created] at keeps
  rw [cleared] at keeps'
  have tree' : m'.IsTree := keeps' (keeps tree)
  have below : w.splitDirectory.place ≠ [] := by
    intro top
    rw [top] at apart
    exact apart List.nil_prefix
  obtain ⟨existing, listed, ran⟩ := w.isReading_splitFiles.bind_eq_ok ran
  obtain ⟨nodup, sorted, mem, sources, directory⟩ := splitFiles_eq_ok tree' finds listed
  cases existing with
  | nil =>
    obtain ⟨paths, m'', splits, ran⟩ := Action.bind_eq_ok ran
    obtain ⟨rfl, rfl⟩ := Action.pure_eq_ok ran
    exact opened_of_splitFile tree' finds splittable apart noNull
      (fun signs parted p => by simp [← mem signs parted]) (sources rfl) splits
  | cons p ps =>
    obtain ⟨rfl, rfl⟩ := Action.pure_eq_ok ran
    have there := directory (by simp)
    rcases clear_eq_ok below cleared with rfl | gone
    · exact ⟨tree', noNull, create_eq_ok created, there, nodup, sorted, mem, by simp⟩
    · exact absurd there gone

end

/-! ## Opened workspaces -/

section

variable {files : List Path} (opened : w.Opened files s)
include opened

/-- Only where there are split files may the submission change. -/
theorem Opened.of_alike (tree : s'.IsTree) (alike : s.Alike s')
    (same : files = [] → s'.get? w.path.place = s.get? w.path.place) : w.Opened files s' := by
  obtain ⟨e, there⟩ := opened.submission
  exact {
    tree := tree
    noNull := opened.noNull
    submission := alike.status there
    directory := alike.status_directory opened.directory
    nodup := opened.nodup
    sorted := opened.sorted
    finds := fun signs parted p =>
      (opened.finds signs parted p).trans ⟨alike.finds, alike.symm.finds⟩
    bare := fun empty => by
      obtain ⟨nothing, unsplit⟩ := opened.bare empty
      refine ⟨fun p found => nothing p (alike.symm.finds found), fun text parts holds => ?_⟩
      obtain ⟨content, raw, now, decoded, rfl⟩ := holds
      refine unsplit _ parts ⟨content, raw, ?_, decoded, rfl⟩
      exact status_of_keeps alike.symm.keeps now
        ((same empty).symm.trans (status_eq_some.1 now).2) }

theorem Opened.run_create : (w.create false).run.run s = (.ok false, s) := by
  obtain ⟨e, there⟩ := opened.submission
  rw [create, run_bind, run_exists? opened.noNull there]
  rfl

theorem Opened.run_openForEditing (splittable : w.isSplittable = true) :
    (w.openForEditing false).run.run s = w.takeUp.run.run s := by
  rw [openForEditing_eq, run_bind, run_checkPath opened.noNull]
  simp only
  rw [run_bind, opened.run_create]
  simp only [splittable, Bool.not_true, Bool.false_eq_true, if_false]
  rw [run_bind, show (w.clear false).run.run s = (.ok (), s) from rfl]

variable (finds : w.FindsSources) (noNull : w.splitDirectory.hasNull = false)
include finds noNull

theorem Opened.splitFiles_eq {existing : List Path}
    (listed : w.splitFiles.run.run s = (.ok existing, s)) : existing = files ∧
      ∃ signs, Glob.parts (CodePoint.ofChar '*' :: w.extension) = .ok [.pattern signs] := by
  have there := run_isDirectory noNull opened.directory
  have listing : s.view.listSources w.splitDirectory w.extension = .ok existing := by
    rw [splitFiles, run_bind, there] at listed
    simp only [if_true] at listed
    exact (ask_eq_ok listed).1
  obtain ⟨ps, parted⟩ := Glob.exists_parts listing
  obtain ⟨signs, rfl, -⟩ := finds ps parted
  obtain ⟨nodup, sorted, mem⟩ := Glob.filesBelow_eq_ok opened.tree parted listing
  refine ⟨Path.eq_of_mem_iff nodup opened.nodup sorted opened.sorted fun p => ?_, signs, parted⟩
  rw [mem, opened.finds signs parted]

/-- What has been taken up is what there is, so nothing is split again. -/
theorem Opened.get?_takeUp (l : Location) : (w.takeUp.run.run s).2.get? l = s.get? l := by
  refine IsReading.bind_cases (P := fun ran => ran.2.get? l = s.get? l)
    w.isReading_splitFiles (fun _ => rfl) fun existing listed => ?_
  cases existing with
  | cons p ps => rfl
  | nil =>
    have empty := (opened.splitFiles_eq finds noNull listed).1
    have same := get?_splitFile_of_bare (opened.bare empty.symm).2 opened.directory l
    simp only [List.isEmpty_nil, Bool.not_true, Bool.false_eq_true, if_false]
    rw [run_bind]
    rcases ran : (splitFile w.path w.splitDirectory).run.run s with ⟨fault | paths, m⟩ <;>
      rw [ran] at same
    · exact same
    · exact same

end

theorem hasNull_splitDirectory (splittable : w.isSplittable = true)
    (apart : ¬ w.splitDirectory.place <+: w.path.place) (noNull : w.path.hasNull = false) :
    w.splitDirectory.hasNull = false := by
  obtain ⟨child, -, more, -⟩ := splitDirectory_eq_child splittable apart
  rw [← Path.child_name more, Path.name_eq_stem_append] at noNull
  rw [child]
  simp only [Path.hasNull, Path.child, List.any_append, Bool.or_eq_false_iff, List.any_cons,
    List.any_nil, Bool.or_false, List.contains_eq_mem, decide_eq_false_iff_not, List.mem_append,
    not_or] at noNull ⊢
  exact ⟨noNull.1, noNull.2.1⟩

/-! ## Sessions -/

/-- Whether an operation is to make everything anew. -/
def Operation.overrides : Operation → Bool
  | create override => override
  | openForEditing override => override
  | prepare _ _ | read _ _ => false

/-- What a workspace may go through: texts of files below the split directory are edited, and
operations run that do not override what is there. -/
inductive Session (w : Workspace) (s : Storage) : Storage → Prop where
  | start : w.Session s s
  | edit {s' : Storage} {l : Location} {old : Bytes} (session : w.Session s s')
    (below : w.splitDirectory.place <+: l) (there : s'.get? l = some (.file old))
    (content : Bytes) : w.Session s (s'.put l (.file content))
  | operation {s' : Storage} (session : w.Session s s') (op : Operation)
    (gentle : op.overrides = false) : w.Session s ((op.run w).run.run s').2

section

variable {files : List Path} (splittable : w.isSplittable = true) (finds : w.FindsSources)
  (apart : ¬ w.splitDirectory.place <+: w.path.place) (opened : w.Opened files s)
include splittable opened

theorem Opened.prepare_of_bare (empty : files = []) (configured : Text) (asked : Option Text) :
    ∃ fault, (w.prepare configured asked).run.run s = (.error fault, s) := by
  obtain ⟨fault, failed⟩ := mergeDirectory_of_bare opened.tree (opened.bare empty).1 w.path
    configured asked
  refine ⟨fault, ?_⟩
  rw [prepare, splittable]
  simp only [Bool.not_true, Bool.false_eq_true, if_false]
  rw [run_bind, run_checkPath opened.noNull]
  simp only
  rw [run_bind, failed]

include finds apart

/-- An operation that does not override changes at most what the submission holds, and that only
when there are split files to merge. -/
theorem Opened.get?_run (op : Operation) (gentle : op.overrides = false) :
    (∀ l, ((op.run w).run.run s).2.get? l = s.get? l) ∨
      files ≠ [] ∧ s.Rewrites w.path ((op.run w).run.run s).2 := by
  have noNull := hasNull_splitDirectory splittable apart opened.noNull
  cases op with
  | create override =>
    obtain rfl : override = false := gentle
    left
    intro l
    rw [Operation.run, run_discard, opened.run_create]
  | openForEditing override =>
    obtain rfl : override = false := gentle
    left
    intro l
    rw [Operation.run, run_discard, opened.run_openForEditing splittable]
    exact opened.get?_takeUp finds noNull l
  | prepare configured asked =>
    rw [Operation.run, run_discard]
    by_cases empty : files = []
    · obtain ⟨fault, failed⟩ := opened.prepare_of_bare splittable empty configured asked
      rw [failed]
      exact .inl fun _ => rfl
    · exact .inr ⟨empty, keeps_prepare (rewrites_refl _) (@Rewrites.trans _)
        (rewrites_makeDirectories _) rewrites_put configured asked s⟩
  | read configured asked =>
    rw [Operation.run, run_discard]
    by_cases empty : files = []
    · left
      intro l
      have final : ((do let _ ← w.create false; Action.read w.path : Action Bytes).run.run
          s).2.get? l = s.get? l := by
        rw [run_bind, opened.run_create]
        simp only
        rw [Action.read, run_ask]
      refine IsReading.bind_cases (P := fun ran => ran.2.get? l = s.get? l)
        (isReading_ask _) (fun _ => rfl) fun there _ => ?_
      cases there with
      | false => exact final
      | true =>
        obtain ⟨fault, failed⟩ := opened.prepare_of_bare splittable empty configured asked
        simp only [if_true]
        rw [run_bind, failed]
    · exact .inr ⟨empty, keeps_read (rewrites_refl _) (@Rewrites.trans _)
        (rewrites_makeDirectories _) rewrites_put configured asked s⟩

theorem Opened.run (op : Operation) (gentle : op.overrides = false) :
    w.Opened files ((op.run w).run.run s).2 := by
  have tree := w.keepsTree_run op s opened.tree
  obtain ⟨e, there⟩ := opened.submission
  rcases opened.get?_run splittable finds apart op gentle with same | ⟨more, rewrites⟩
  · exact opened.of_alike tree (alike_of_same (w.limits_run op s) same) fun _ => same _
  · exact opened.of_alike tree (rewrites e there).1 fun empty => absurd empty more

omit splittable finds in
theorem Opened.edit {l : Location} {old : Bytes} (below : w.splitDirectory.place <+: l)
    (there : s.get? l = some (.file old)) (content : Bytes) :
    w.Opened files (s.put l (.file content)) := by
  have tree : (s.put l (.file content)).IsTree := by
    refine opened.tree.put (opened.tree.get?_dropLast there) (by simp [there]) ?_
    exact opened.tree.names _ (exists_entry there (by rintro rfl; cases there))
  refine opened.of_alike tree (alike_put there content) fun _ => get?_put_of_ne ?_ s _
  rintro rfl
  exact apart below

end

/-- Once a workspace is open, nothing that runs without override changes what is below its split
directory, and it is always opened with the same files. -/
theorem openForEditing_again {override : Bool} {files : List Path} {s'' : Storage}
    (splittable : w.isSplittable = true) (finds : w.FindsSources)
    (apart : ¬ w.splitDirectory.place <+: w.path.place) (tree : s.IsTree)
    (ran : (w.openForEditing override).run.run s = (.ok files, s')) (session : w.Session s' s'')
    (op : Operation) (gentle : op.overrides = false) :
    (∀ l, w.splitDirectory.place <+: l → ((op.run w).run.run s'').2.get? l = s''.get? l) ∧
      ∀ files' s''', (w.openForEditing false).run.run s'' = (.ok files', s''') →
        files' = files := by
  have opened : w.Opened files s'' := by
    induction session with
    | start => exact opened_openForEditing tree finds splittable apart ran
    | edit _ below there content ih => exact ih.edit apart below there content
    | operation _ op gentle ih => exact ih.run splittable finds apart op gentle
  constructor
  · intro l below
    rcases opened.get?_run splittable finds apart op gentle with same | ⟨-, rewrites⟩
    · exact same l
    · obtain ⟨e, there⟩ := opened.submission
      exact (rewrites e there).2 l (by rintro rfl; exact apart below)
  · intro files' s''' again
    have noNull := hasNull_splitDirectory splittable apart opened.noNull
    have opened' := opened_openForEditing opened.tree finds splittable apart again
    have opened'' : w.Opened files s''' := by
      have := opened.run splittable finds apart (.openForEditing false) rfl
      rwa [Operation.run, run_discard, again] at this
    rw [opened.run_openForEditing splittable] at again
    obtain ⟨existing, listed, -⟩ := w.isReading_splitFiles.bind_eq_ok again
    obtain ⟨-, signs, parted⟩ := opened.splitFiles_eq finds noNull listed
    refine Path.eq_of_mem_iff opened'.nodup opened.nodup opened'.sorted opened.sorted fun p => ?_
    rw [opened'.finds signs parted, opened''.finds signs parted]

/-- An empty root directory. -/
def yard : Storage :=
  { entries := [(["r"], .directory)] }

def plain : Workspace :=
  ⟨"/r", 1, "a", ".java", "class A {}"⟩

/-- What is written into the one split file stays there when the workspace is merged. -/
theorem openForEditing_again_plain :
    plain.isSplittable = true ∧ plain.FindsSources ∧
      ¬ plain.splitDirectory.place <+: plain.path.place ∧ yard.IsTree ∧
      ∃ files s', (plain.openForEditing true).run.run yard = (.ok files, s') ∧
        ((Operation.run plain (.prepare "last" none)).run.run
          (s'.put ["r", "1_a", "A.java"] (.file [1]))).2.get? ["r", "1_a", "A.java"]
            = some (.file [1]) := by
  have splittable : plain.isSplittable = true := by decide +kernel
  have finds : plain.FindsSources := findsSources_of_eq rfl
  have apart : ¬ plain.splitDirectory.place <+: plain.path.place := by decide +kernel
  have tree : yard.IsTree := by decide
  refine ⟨splittable, finds, apart, tree, ?_⟩
  obtain ⟨files, opens⟩ : ∃ files, ((plain.openForEditing true).run.run yard).1 = .ok files :=
    exists_eq_ok (by decide +kernel)
  obtain ⟨old, there⟩ : ∃ old, ((plain.openForEditing true).run.run yard).2.get?
      ["r", "1_a", "A.java"] = some (.file old) :=
    ⟨(Text.ofString "public class A {}\n").flatMap Text.Utf8.encodeCodePoint, by decide +kernel⟩
  refine ⟨files, _, Prod.ext opens rfl, ?_⟩
  rw [(openForEditing_again splittable finds apart tree (Prod.ext opens rfl)
    (Session.start.edit (by decide +kernel) there [1]) (.prepare "last" none) rfl).1 _
      (by decide +kernel), get?_put_self (by simp)]

/-- The extension is that of a source, but it does not find the files of a split. -/
def loud : Workspace :=
  ⟨"/r", 1, "a", ".JAVA", "class A {}"⟩

/-- What was written into a split file is lost when the workspace is opened again. -/
theorem openForEditing_loud :
    loud.isSplittable = true ∧ yard.IsTree ∧
      ∃ files s', (loud.openForEditing false).run.run yard = (.ok files, s') ∧
        (∃ old, s'.get? ["r", "1_a", "A.java"] = some (.file old)) ∧
        loud.splitDirectory.place <+: ["r", "1_a", "A.java"] ∧
        ((Operation.run loud (.openForEditing false)).run.run
          (s'.put ["r", "1_a", "A.java"] (.file [1]))).2.get? ["r", "1_a", "A.java"]
            ≠ some (.file [1]) := by
  refine ⟨by decide +kernel, by decide, ?_⟩
  obtain ⟨files, opens⟩ : ∃ files, ((loud.openForEditing false).run.run yard).1 = .ok files :=
    exists_eq_ok (by decide +kernel)
  exact ⟨files, _, Prod.ext opens rfl,
    ⟨(Text.ofString "public class A {}\n").flatMap Text.Utf8.encodeCodePoint, by decide +kernel⟩,
    by decide +kernel, by decide +kernel⟩

end Workspace

end JavaUnits
