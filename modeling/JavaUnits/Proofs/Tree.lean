import Mathlib.Data.List.Induction
import JavaUnits.Proofs.Footprint

/-!
Storages that are trees: whatever is there lies in a directory, no name is a double dot, and every
directory can be listed. Every action keeps a tree a tree.
-/

namespace JavaUnits

namespace Storage

variable {p : Path} {s s' : Storage} {l m : Location}

/-- Whether whatever is there lies in a directory. -/
structure IsRooted (s : Storage) : Prop where
  parent : ∀ entry ∈ s.entries, s.get? entry.1.dropLast = some .directory
  names : ∀ entry ∈ s.entries, Path.parentName ∉ entry.1

instance (s : Storage) : Decidable s.IsRooted :=
  decidable_of_iff (_ ∧ _) ⟨fun both => ⟨both.1, both.2⟩, fun rooted => ⟨rooted.1, rooted.2⟩⟩

structure IsTree (s : Storage) : Prop extends s.IsRooted where
  listed : ∀ entry ∈ s.limits, entry.2.listing = none

instance (s : Storage) : Decidable s.IsTree :=
  decidable_of_iff (_ ∧ _) ⟨fun both => ⟨both.1, both.2⟩, fun tree => ⟨tree.1, tree.2⟩⟩

theorem exists_entry {e : Entry} (there : s.get? l = some e) (inside : l ≠ []) :
    (l, e) ∈ s.entries := by
  rw [get?, if_neg (by simpa using inside)] at there
  obtain ⟨front, back, parts, -⟩ := List.lookup_eq_some_iff.1 there
  rw [parts]
  exact List.mem_append_right _ List.mem_cons_self

theorem IsRooted.get?_dropLast (rooted : s.IsRooted) {e : Entry} (there : s.get? l = some e) :
    s.get? l.dropLast = some .directory := by
  by_cases root : l = []
  · subst root
    rfl
  · exact rooted.parent _ (exists_entry there root)

/-- Whatever has something below it is a directory. -/
theorem IsRooted.get?_of_append (rooted : s.IsRooted) {e : Entry} (more : m ≠ [])
    (there : s.get? (l ++ m) = some e) : s.get? l = some .directory := by
  induction m using List.reverseRecOn generalizing e with
  | nil => exact absurd rfl more
  | append_singleton m name ih =>
    have above := rooted.get?_dropLast there
    rw [← List.append_assoc, List.dropLast_concat] at above
    by_cases last : m = []
    · rwa [last, List.append_nil] at above
    · exact ih last above

theorem IsTree.put (tree : s.IsTree) {e : Entry} (place : s.get? l.dropLast = some .directory)
    (free : s.get? l ≠ some .directory) (names : Path.parentName ∉ l) : (s.put l e).IsTree := by
  have keeps := keepsDirectories_put free e
  refine ⟨⟨fun entry mem => ?_, fun entry mem => ?_⟩, tree.listed⟩
  · rcases List.mem_cons.1 mem with rfl | kept
    · exact keeps.directory _ place
    · exact keeps.directory _ (tree.parent entry (List.mem_filter.1 kept).1)
  · rcases List.mem_cons.1 mem with rfl | kept
    · exact names
    · exact tree.names entry (List.mem_filter.1 kept).1

theorem IsTree.erase (tree : s.IsTree) (l : Location) : (s.erase l).IsTree := by
  refine ⟨⟨fun entry mem => ?_, fun entry mem => ?_⟩, tree.listed⟩
  · obtain ⟨listed, kept⟩ := List.mem_filter.1 mem
    have above := tree.parent entry listed
    by_cases root : entry.1.dropLast = []
    · rw [root]
      rfl
    · rw [get?_erase s l root, if_neg, above]
      intro below
      rw [List.isPrefixOf_iff_prefix] at below
      rw [Bool.not_eq_true', ← Bool.not_eq_true, List.isPrefixOf_iff_prefix] at kept
      exact kept (below.trans (List.dropLast_prefix _))
  · exact tree.names entry (List.mem_filter.1 mem).1

theorem IsRooted.get?_dropLast_of_walk (rooted : s.IsRooted) {parts : List Text}
    (above : s.get? l.dropLast = some .directory) (walked : s.walk l parts = .ok m) :
    s.get? m.dropLast = some .directory := by
  induction parts generalizing l with
  | nil => rwa [← Except.ok.inj walked]
  | cons part parts ih =>
    have here := get?_of_walk_cons walked
    have later := (walk_cons_eq_ok.1 walked).2
    split at later
    · exact ih (rooted.get?_dropLast above) later
    · refine ih ?_ later.2
      rwa [List.dropLast_concat]

theorem IsRooted.get?_dropLast_of_locate (rooted : s.IsRooted) (found : s.locate p = .ok l) :
    s.get? l.dropLast = some .directory :=
  rooted.get?_dropLast_of_walk rfl (locate_eq_ok.1 found).2

/-- Whatever is made at the end of a path keeps a tree a tree. -/
theorem IsTree.put_of_locate (tree : s.IsTree) (found : s.locate p = .ok l)
    (free : s.get? l ≠ some .directory) (e : Entry) : (s.put l e).IsTree := by
  refine tree.put (tree.get?_dropLast_of_locate found) free ?_
  rw [locate_eq_place found]
  exact p.parentName_notMem_place

/-- Whether a tree stays a tree. -/
def KeepsTree (s s' : Storage) : Prop :=
  s.IsTree → s'.IsTree

theorem keepsTree_refl (s : Storage) : s.KeepsTree s :=
  id

theorem KeepsTree.trans {s'' : Storage} (first : s.KeepsTree s') (later : s'.KeepsTree s'') :
    s.KeepsTree s'' :=
  later ∘ first

end Storage

namespace Action

open Storage

variable {α β : Type} {p : Path}

theorem IsReading.keepsTree {action : Action α} (reading : action.IsReading) :
    action.Keeps KeepsTree :=
  reading.keeps keepsTree_refl

theorem keepsTree_bind {action : Action α} {f : α → Action β} (first : action.Keeps KeepsTree)
    (later : ∀ a, (f a).Keeps KeepsTree) : (action >>= f).Keeps KeepsTree :=
  Keeps.bind (@KeepsTree.trans) first later

theorem keepsTree_makeDirectoryOr {orElse : Action Unit} (keeps : orElse.Keeps KeepsTree) :
    (makeDirectoryOr p orElse).Keeps KeepsTree := by
  refine keepsTree_bind (isReading_checkPath p).keepsTree fun _ s => ?_
  rw [run_get_bind]
  split
  · rename_i made
    obtain ⟨l, found, none, rfl⟩ := makeDirectory_eq_ok made
    exact fun tree => tree.put_of_locate found (by simp [none]) _
  · exact keeps s
  · refine keepsTree_bind (isReading_ask _).keepsTree (fun there => ?_) s
    split
    · exact (isReading_pure ()).keepsTree
    · exact (isReading_throw _).keepsTree

theorem keepsTree_makeDirectories (p : Path) : (makeDirectories p).Keeps KeepsTree := by
  fun_induction makeDirectories p with
  | case1 p missing root => exact keepsTree_makeDirectoryOr (isReading_throw _).keepsTree
  | case2 p missing more ih =>
    exact keepsTree_makeDirectoryOr (keepsTree_bind ih fun _ =>
      keepsTree_makeDirectoryOr (isReading_throw _).keepsTree)

theorem keepsTree_put (s : Storage) (content : Bytes) (found : s.writable p = .ok p.place) :
    s.KeepsTree (s.put p.place (.file content)) := by
  obtain ⟨found, free, -⟩ := writable_eq_ok.1 found
  exact fun tree => tree.put_of_locate found free _

theorem keepsTree_splitFile (source directory : Path) :
    (splitFile source directory).Keeps KeepsTree :=
  keeps_splitFile keepsTree_refl (@KeepsTree.trans) (keepsTree_makeDirectories directory)
    fun _ _ => keepsTree_put

theorem keepsTree_removeTree (p : Path) : (removeTree p).Keeps KeepsTree :=
  keeps_removeTree keepsTree_refl (@KeepsTree.trans) fun _ _ _ tree => tree.erase _

end Action

/-- No operation on a workspace makes of a tree what is none. -/
theorem Workspace.keepsTree_run (w : Workspace) (op : Operation) :
    (op.run w).Keeps Storage.KeepsTree :=
  keeps_run Storage.keepsTree_refl (@Storage.KeepsTree.trans) (Action.keepsTree_makeDirectories _)
    Action.keepsTree_put (Action.keepsTree_makeDirectories _) (fun _ _ => Action.keepsTree_put)
    (Action.keepsTree_removeTree _) op

end JavaUnits
