import JavaUnits.Proofs.FailedMerge
import JavaUnits.Workspace

/-!
Footprints: the places that an action on the storage may change, however it ends. An action that
makes directories may also make those that are missing on the way.
-/

namespace JavaUnits

namespace Storage

variable {own onWay : Location → Prop} {s s' s'' : Storage}

/-- Whether all that has changed is the workspace's `own`, or a new directory `onWay`. -/
def StaysWithin (own onWay : Location → Prop) (s s' : Storage) : Prop :=
  ∀ l, s'.get? l = s.get? l ∨ own l ∨
    s.get? l = none ∧ s'.get? l = some .directory ∧ onWay l

theorem staysWithin_refl (s : Storage) : s.StaysWithin own onWay s :=
  fun _ => .inl rfl

theorem StaysWithin.trans (first : s.StaysWithin own onWay s')
    (later : s'.StaysWithin own onWay s'') : s.StaysWithin own onWay s'' := by
  intro l
  rcases later l with same | mine | ⟨none, new, way⟩
  · rw [same]
    exact first l
  · exact .inr (.inl mine)
  · rcases first l with same | mine | ⟨-, there, -⟩
    · exact .inr (.inr ⟨same ▸ none, new, way⟩)
    · exact .inr (.inl mine)
    · rw [there] at none
      cases none

theorem GrowsTo.staysWithin {p : Path} (grows : s.GrowsTo p s')
    (ways : ∀ n, own (p.front n).place ∨ onWay (p.front n).place) : s.StaysWithin own onWay s' := by
  intro l
  rcases grows.place l with same | ⟨none, new, n, found⟩
  · exact .inl same
  · rw [locate_eq_place found] at none new ⊢
    rcases ways n with mine | way
    · exact .inr (.inl mine)
    · exact .inr (.inr ⟨none, new, way⟩)

theorem staysWithin_put {l : Location} (mine : own l) (s : Storage) (e : Entry) :
    s.StaysWithin own onWay (s.put l e) := by
  intro m
  by_cases same : m = l
  · exact .inr (.inl (same ▸ mine))
  · exact .inl (get?_put_of_ne same s e)

theorem staysWithin_erase {l : Location} (mine : ∀ m, l <+: m → own m) (s : Storage) :
    s.StaysWithin own onWay (s.erase l) := by
  intro m
  by_cases root : m = []
  · subst root
    exact .inl rfl
  · rw [get?_erase s l root]
    split
    · rename_i below
      exact .inr (.inl (mine m (List.isPrefixOf_iff_prefix.1 below)))
    · exact .inl rfl

theorem prefix_of_mem_placesBelow {l m : Location} (mem : m ∈ s.placesBelow l) : l <+: m := by
  rw [placesBelow, List.mem_mergeSort, List.mem_filter, Bool.and_eq_true] at mem
  exact List.isPrefixOf_iff_prefix.1 mem.2.1

end Storage

namespace Files

theorem mem_put {name text : Text} {files : Files} {file : Text × Text}
    (mem : file ∈ files.put name text) : file = (name, text) ∨ file ∈ files := by
  induction files with
  | nil => exact .inl (List.mem_singleton.1 mem)
  | cons first files ih =>
    rw [put] at mem
    split at mem
    · exact (List.mem_cons.1 mem).imp id (List.mem_cons_of_mem _)
    · rcases List.mem_cons.1 mem with rfl | mem
      · exact .inr List.mem_cons_self
      · exact (ih mem).imp id (List.mem_cons_of_mem _)

theorem mem_ofPairs {pairs : List (Text × Text)} {file : Text × Text} :
    file ∈ ofPairs pairs → file ∈ pairs := by
  have keeps (files : Files) (mem : file ∈ pairs.foldl (fun files pair =>
      files.put pair.1 pair.2) files) : file ∈ files ∨ file ∈ pairs := by
    induction pairs generalizing files with
    | nil => exact .inl mem
    | cons pair pairs ih =>
      rw [List.mem_cons]
      rcases ih _ mem with put | later
      · rcases mem_put put with rfl | before
        · exact .inr (.inl rfl)
        · exact .inl before
      · exact .inr (.inr later)
  intro mem
  rcases keeps [] mem with never | listed
  · cases never
  · exact listed

end Files

theorem exists_of_mem_names {source : Text} {parts : SplitFiles} (splits : split source = .ok parts)
    {name : Text} (mem : name ∈ parts.files.names) :
    ∃ t : Text, name = t ++ sourceExtension := by
  obtain ⟨u, -, made⟩ := bind_eq_ok.1 splits
  obtain rfl := Except.ok.inj made
  obtain ⟨file, listed, rfl⟩ := List.mem_map.1 mem
  obtain ⟨t, -, rfl⟩ := List.mem_map.1 (Files.mem_ofPairs listed)
  exact ⟨t.name, rfl⟩

theorem ne_parentName_of_split {source : Text} {parts : SplitFiles}
    (splits : split source = .ok parts)
    {name : Text} (mem : name ∈ parts.files.names) : name ≠ Path.parentName := by
  obtain ⟨t, rfl⟩ := exists_of_mem_names splits mem
  intro back
  have last := congrArg List.getLast? back
  rw [List.getLast?_append, show sourceExtension.getLast? = some (CodePoint.ofChar 'a') by decide,
    Option.some_or] at last
  exact absurd last (by decide)

namespace Action

open Storage

variable {α β : Type} {own onWay : Location → Prop} {p : Path}

theorem Keeps.wrapErrors {relates : Storage → Storage → Prop} {action : Action α}
    (keeps : action.Keeps relates) (wrap : StorageError → Fault) :
    (wrapErrors wrap action).Keeps relates := by
  intro s
  have here := keeps s
  rw [run_wrapErrors]
  split
  · rename_i ran
    rw [ran] at here
    exact here
  · exact here

/-- What every new content of a file keeps, a writing keeps, however it ends. -/
theorem keeps_write {relates : Storage → Storage → Prop} (refl : ∀ s, relates s s)
    (puts : ∀ s content, s.writable p = .ok p.place →
      relates s (s.put p.place (.file content))) (text : Text) : (write p text).Keeps relates := by
  intro s
  have ends := writeEnds_write p text s
  generalize (write p text).run.run s = ran at ends ⊢
  cases ends with
  | refused fault => exact refl s
  | unencodable found => exact puts s _ found
  | cut found => exact puts s _ found
  | written found => exact puts s _ found

section

variable {relates : Storage → Storage → Prop} (refl : ∀ s, relates s s)
  (trans : ∀ {s s' s''}, relates s s' → relates s' s'' → relates s s'')
include refl trans

theorem keeps_writeAll {files : List (Path × Text)}
    (puts : ∀ file ∈ files, ∀ s content, s.writable file.1 = .ok file.1.place →
      relates s (s.put file.1.place (.file content))) : (writeAll files).Keeps relates := by
  induction files with
  | nil => exact (isReading_pure ()).keeps refl
  | cons file files ih =>
    rw [List.forall_mem_cons] at puts
    exact Keeps.bind @trans ((keeps_write refl puts.1 file.2).wrapErrors _) fun _ =>
      ih puts.2

theorem keeps_removeEach {l : Location} {places : List Location}
    (erases : ∀ m ∈ places, ∀ s, relates s (s.erase m)) : (removeEach l places).Keeps relates := by
  induction places with
  | nil => exact (isReading_pure ()).keeps refl
  | cons place places ih =>
    rw [List.forall_mem_cons] at erases
    intro s
    rw [removeEach, run_get_bind]
    split
    · exact refl s
    · exact Keeps.bind @trans (show (modify (·.erase place) : Action Unit).Keeps relates from
        erases.1) (fun _ => ih erases.2) s

/-- A tree is removed from one place, even when the path leads nowhere once it is empty. -/
theorem keeps_removeTree (erases : ∀ m, p.place <+: m → ∀ s, relates s (s.erase m)) :
    (removeTree p).Keeps relates := by
  refine Keeps.bind @trans ((isReading_checkPath p).keeps refl) fun _ s => ?_
  rw [run_get_bind]
  split
  · exact refl s
  · rename_i l found
    obtain rfl := locate_eq_place found
    rw [run_get_bind]
    split
    · exact refl s
    · exact refl s
    · rw [run_get_bind]
      split
      · exact refl s
      · rw [run_get_bind]
        refine Keeps.bind @trans (keeps_removeEach refl @trans fun m mem => ?_) (fun _ s => ?_) s
        · exact erases m (prefix_of_mem_placesBelow mem)
        · rw [run_get_bind]
          split
          · exact refl s
          · rename_i l found
            obtain rfl := locate_eq_place found
            rw [run_get_bind]
            split
            · exact refl s
            · exact erases _ List.prefix_rfl s

theorem keeps_splitFile {source directory : Path}
    (makes : (makeDirectories directory).Keeps relates)
    (puts : ∀ name ≠ Path.parentName, ∀ s content,
      s.writable (directory.child name) = .ok (directory.child name).place →
        relates s (s.put (directory.child name).place (.file content))) :
    (splitFile source directory).Keeps relates := by
  refine Keeps.bind @trans ((isReading_ask _).keeps refl) fun there => ?_
  cases there with
  | false => exact (isReading_throw _).keeps refl
  | true =>
    refine Keeps.bind @trans ((isReading_ask _).keeps refl) fun text => ?_
    split
    · exact (isReading_throw _).keeps refl
    · rename_i parts splits
      refine Keeps.bind @trans (makes.wrapErrors _) fun _ => ?_
      refine Keeps.bind @trans (keeps_writeAll refl @trans fun file mem => ?_) fun _ =>
        (isReading_pure _).keeps refl
      obtain ⟨⟨name, s⟩, named, rfl⟩ := List.mem_map.1 mem
      exact puts name (ne_parentName_of_split splits (List.mem_map_of_mem named))

theorem keeps_mergeDirectory {directory target : Path}
    (makes : (makeDirectories target.parent).Keeps relates)
    (puts : ∀ s content, s.writable target = .ok target.place →
      relates s (s.put target.place (.file content)))
    (configured : Text) (asked : Option Text) :
    (mergeDirectory configured directory target asked).Keeps relates := by
  refine Keeps.bind @trans ((isReading_ask _).keeps refl) fun merged => ?_
  refine Keeps.bind @trans (Keeps.wrapErrors ?_ _) fun _ => (isReading_pure _).keeps refl
  exact Keeps.bind @trans makes fun _ => keeps_write refl puts _

end

/-- Whether the action changes nothing but its `own` places and makes directories `onWay`. -/
abbrev ChangesOnly (own onWay : Location → Prop) (action : Action α) : Prop :=
  action.Keeps (StaysWithin own onWay)

theorem ChangesOnly.bind {action : Action α} {f : α → Action β}
    (first : action.ChangesOnly own onWay) (later : ∀ a, (f a).ChangesOnly own onWay) :
    (action >>= f).ChangesOnly own onWay :=
  Keeps.bind (@StaysWithin.trans own onWay) first later

theorem changesOnly_makeDirectories
    (ways : ∀ n, own (p.front n).place ∨ onWay (p.front n).place) :
    (makeDirectories p).ChangesOnly own onWay :=
  fun s => (growsTo_makeDirectories p s).staysWithin ways

theorem changesOnly_writeAll {files : List (Path × Text)}
    (mine : ∀ file ∈ files, own file.1.place) :
    (writeAll files).ChangesOnly own onWay :=
  keeps_writeAll staysWithin_refl (@StaysWithin.trans own onWay) fun file listed s _ _ =>
    staysWithin_put (mine file listed) s _

theorem changesOnly_removeTree (mine : ∀ l, p.place <+: l → own l) :
    (removeTree p).ChangesOnly own onWay :=
  keeps_removeTree staysWithin_refl (@StaysWithin.trans own onWay) fun _ below =>
    staysWithin_erase fun l beyond => mine l (below.trans beyond)

end Action

namespace Workspace

open Action Storage

/-- Takes away what was split before, when everything is to be made anew. -/
def clear (w : Workspace) (override : Bool) : Action Unit := do
  if override then
    if ← exists? w.splitDirectory then removeTree w.splitDirectory

/-- The split files that are there, or those of a new split where there are none. -/
def takeUp (w : Workspace) : Action (List Path) := do
  let existing ← w.splitFiles
  if !existing.isEmpty then return existing
  return Path.sort (← splitFile w.path w.splitDirectory)

theorem openForEditing_eq (w : Workspace) (override : Bool) : w.openForEditing override = (do 
    checkPath w.path
    let _ ← w.create override
    if !w.isSplittable then return [w.path]
    w.clear override
    w.takeUp) := by
  rw [openForEditing]
  refine bind_congr fun _ => bind_congr fun _ => ?_
  cases w.isSplittable with
  | false => rfl
  | true =>
    cases override with
    | false => simp [clear, takeUp]
    | true =>
      simp only [clear, takeUp, bind_assoc, if_true, Bool.not_true, Bool.false_eq_true, if_false]
      refine bind_congr fun there => ?_
      cases there <;> simp

theorem isReading_splitFiles (w : Workspace) : w.splitFiles.IsReading := by
  refine (isReading_ask _).bind fun there => ?_
  split
  · exact isReading_ask _
  · exact isReading_pure _

/-! ## Operations -/

/-- What may be asked of a workspace. -/
inductive Operation where
  | create (override : Bool)
  | openForEditing (override : Bool)
  | prepare (configured : Text) (asked : Option Text)
  | read (configured : Text) (asked : Option Text)

def Operation.run (w : Workspace) : Operation → Action Unit
  | create override => discard (w.create override)
  | openForEditing override => discard (w.openForEditing override)
  | prepare configured asked => discard (w.prepare configured asked)
  | read configured asked => discard (w.read configured asked)

section

variable {relates : Storage → Storage → Prop} {w : Workspace} (refl : ∀ s, relates s s)
  (trans : ∀ {s s' s''}, relates s s' → relates s' s'' → relates s s'')
include refl trans

theorem keeps_clear (removes : (removeTree w.splitDirectory).Keeps relates) (override : Bool) :
    (w.clear override).Keeps relates := by
  rw [clear]
  split
  · refine Keeps.bind @trans ((isReading_ask _).keeps refl) fun there => ?_
    split
    · exact removes
    · exact (isReading_pure _).keeps refl
  · exact (isReading_pure _).keeps refl

theorem keeps_takeUp (splits : (makeDirectories w.splitDirectory).Keeps relates)
    (fills : ∀ name ≠ Path.parentName, ∀ s content,
      s.writable (w.splitDirectory.child name) = .ok (w.splitDirectory.child name).place →
        relates s (s.put (w.splitDirectory.child name).place (.file content))) :
    w.takeUp.Keeps relates := by
  refine Keeps.bind @trans (w.isReading_splitFiles.keeps refl) fun existing => ?_
  split
  · exact (isReading_pure _).keeps refl
  · exact Keeps.bind @trans (keeps_splitFile refl @trans splits fills) fun _ =>
      (isReading_pure _).keeps refl

variable (makes : (makeDirectories w.path.parent).Keeps relates)
  (writes : ∀ s content, s.writable w.path = .ok w.path.place →
    relates s (s.put w.path.place (.file content)))
include makes writes

theorem keeps_create (override : Bool) : (w.create override).Keeps relates := by
  refine Keeps.bind @trans ((isReading_ask _).keeps refl) fun there => ?_
  split
  · exact (isReading_pure _).keeps refl
  · exact Keeps.bind @trans makes fun _ =>
      Keeps.bind @trans (keeps_write refl writes _) fun _ => (isReading_pure _).keeps refl

theorem keeps_prepare (configured : Text) (asked : Option Text) :
    (w.prepare configured asked).Keeps relates := by
  rw [prepare]
  split
  · exact (isReading_pure _).keeps refl
  · exact Keeps.bind @trans ((isReading_checkPath _).keeps refl) fun _ =>
      Keeps.bind @trans (keeps_mergeDirectory refl @trans makes writes configured asked) fun _ =>
        (isReading_pure _).keeps refl

theorem keeps_read (configured : Text) (asked : Option Text) :
    (w.read configured asked).Keeps relates := by
  have final : (do let _ ← w.create false; Action.read w.path).Keeps relates :=
    Keeps.bind @trans (keeps_create refl @trans makes writes false) fun _ =>
      (isReading_ask _).keeps refl
  refine Keeps.bind @trans ((isReading_ask _).keeps refl) fun there => ?_
  split
  · exact Keeps.bind @trans (keeps_prepare refl @trans makes writes configured asked) fun _ => final
  · exact final

/-- What the writing and removing of a workspace's own files keeps, every operation keeps. -/
theorem keeps_run (splits : (makeDirectories w.splitDirectory).Keeps relates)
    (fills : ∀ name ≠ Path.parentName, ∀ s content,
      s.writable (w.splitDirectory.child name) = .ok (w.splitDirectory.child name).place →
        relates s (s.put (w.splitDirectory.child name).place (.file content)))
    (removes : (removeTree w.splitDirectory).Keeps relates) (op : Operation) :
    (op.run w).Keeps relates := by
  have silent {α : Type} {action : Action α} (keeps : action.Keeps relates) :
      (discard action).Keeps relates :=
    Keeps.bind @trans keeps fun _ => (isReading_pure _).keeps refl
  cases op with
  | create override => exact silent (keeps_create refl @trans makes writes override)
  | prepare configured asked =>
    exact silent (keeps_prepare refl @trans makes writes configured asked)
  | read configured asked => exact silent (keeps_read refl @trans makes writes configured asked)
  | openForEditing override =>
    refine silent ?_
    rw [openForEditing_eq]
    refine Keeps.bind @trans ((isReading_checkPath _).keeps refl) fun _ =>
      Keeps.bind @trans (keeps_create refl @trans makes writes override) fun _ => ?_
    split
    · exact (isReading_pure _).keeps refl
    · exact Keeps.bind @trans (keeps_clear refl @trans removes override) fun _ =>
        keeps_takeUp refl @trans splits fills

end

end Workspace

end JavaUnits
