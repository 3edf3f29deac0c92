import JavaUnits.Proofs.Location
import JavaUnits.Proofs.Order
import JavaUnits.Proofs.Views
import JavaUnits.Storage.Glob

/-!
Searches below a directory. They find what the directory leads to through directories, and not
through links. A directory that may not be listed leads to nothing, and no word is lost about it;
whatever else goes wrong is the end of the search.
-/

namespace JavaUnits

namespace View

variable {v v' : View} {p directory : Path} {name : Text} {kind : EntryKind} {down : Location}

/-- Whether the directory at a path shows a name that stands for such an entry. -/
def Shows (v : View) (p : Path) (name : Text) (kind : EntryKind) : Prop :=
  ∃ found, v.names p = .ok found ∧ (name, kind) ∈ found

theorem shows_iff {found : List (Text × EntryKind)} (listed : v.names p = .ok found) :
    v.Shows p name kind ↔ (name, kind) ∈ found := by
  simp [Shows, listed]

theorem not_shows {cause : StorageCause} (refused : v.names p = .error cause) :
    ¬ v.Shows p name kind := by
  simp [Shows, refused]

/-- What passes from the directories that a directory shows to the directory itself holds of all
paths, since too long a path shows nothing. -/
theorem shows_induction {motive : Path → Prop}
    (step : ∀ p, (∀ name, v.Shows p name .directory → motive (p.child name)) → motive p)
    (p : Path) : motive p :=
  step p fun name _shown => shows_induction step (p.child name)
termination_by Storage.pathLimit + 1 - p.parts.length
decreasing_by
  obtain ⟨found, listed, -⟩ := _shown
  have short := v.short listed
  have parts := p.length_parts_le
  simp only [Path.child, List.length_append, List.length_singleton]
  omega

/-- Whether names lead from the directory at a path to such an entry. All but the last of them stand
for directories. -/
inductive Leads (v : View) : Path → Location → EntryKind → Prop
  | here (p : Path) : Leads v p [] .directory
  | entry {p : Path} {name : Text} {kind : EntryKind} (shown : v.Shows p name kind) :
      Leads v p [name] kind
  | through {p : Path} {name : Text} {down : Location} {kind : EntryKind}
      (shown : v.Shows p name .directory) (leads : Leads v (p.child name) down kind) :
      Leads v p (name :: down) kind

theorem leads_cons : v.Leads p (name :: down) .directory ↔
    v.Shows p name .directory ∧ v.Leads (p.child name) down .directory := by
  constructor
  · intro leads
    cases leads with
    | entry shown => exact ⟨shown, .here _⟩
    | through shown leads => exact ⟨shown, leads⟩
  · rintro ⟨shown, leads⟩
    exact .through shown leads

theorem leads_iff_of_error {cause : StorageCause} (refused : v.names p = .error cause) :
    v.Leads p down .directory ↔ down = [] := by
  constructor
  · intro leads
    cases leads with
    | here => rfl
    | entry shown => exact absurd shown (not_shows refused)
    | through shown => exact absurd shown (not_shows refused)
  · rintro rfl
    exact .here p

theorem leads_concat : v.Leads p (down ++ [name]) kind ↔
    v.Leads p down .directory ∧ v.Shows (p.below down) name kind := by
  induction down generalizing p with
  | nil =>
    rw [List.nil_append, Path.below_nil]
    constructor
    · intro leads
      cases leads with
      | entry shown => exact ⟨.here p, shown⟩
      | through shown leads =>
        cases leads with
        | here => exact ⟨.here p, shown⟩
    · exact fun leads => .entry leads.2
  | cons first down ih =>
    rw [leads_cons, ← Path.child_below, and_assoc, ← ih]
    constructor
    · intro leads
      cases later : down ++ [name] with
      | nil => simp at later
      | cons next rest =>
        rw [List.cons_append, later] at leads
        cases leads with
        | through shown leads => exact ⟨shown, leads⟩
    · rintro ⟨shown, leads⟩
      exact .through shown leads

/-- Whether the last of the names is as asked. -/
def EndsIn (fits : Text → Prop) (down : Location) : Prop :=
  ∃ name ∈ down.getLast?, fits name

theorem endsIn_iff {fits : Text → Prop} :
    EndsIn fits down ↔ ∃ front name, down = front ++ [name] ∧ fits name := by
  constructor
  · rintro ⟨name, last, fit⟩
    exact ⟨down.dropLast, name, (List.dropLast_append_getLast? _ last).symm, fit⟩
  · rintro ⟨front, name, rfl, fit⟩
    exact ⟨name, by simp, fit⟩

/-- Whether the system answers what a search for files asks: it lists the directories below, unless
a permission is wanting, and tells of whatever has a name that fits what it is. -/
structure Answers (v : View) (directory : Path) (fits : Text → Prop) : Prop where
  lists : ∀ down, v.Leads directory down .directory →
    ∀ cause, v.names (directory.below down) = .error cause → cause.isPermission = true
  tells : ∀ down kind, v.Leads directory down kind → EndsIn fits down →
    ∃ found, v.isFile (directory.below down) = .ok found

end View

namespace Glob

namespace Search

variable {α : Type} {first later search : Search} {f : α → Search} {as : List α} {p : Path}

theorem append_fault? :
    (first.append later).fault? = none ↔ first.fault? = none ∧ later.fault? = none := by
  rw [Search.append]
  cases here : first.fault? <;> simp [here]

theorem mem_append (whole : first.fault? = none) :
    p ∈ (first.append later).found ↔ p ∈ first.found ∨ p ∈ later.found := by
  rw [Search.append, whole]
  exact List.mem_append

theorem along_fault? : (along f as).fault? = none ↔ ∀ a ∈ as, (f a).fault? = none := by
  induction as with
  | nil => simp [along, nothing]
  | cons a as ih => rw [along, append_fault?, ih, List.forall_mem_cons]

theorem mem_along (whole : ∀ a ∈ as, (f a).fault? = none) :
    p ∈ (along f as).found ↔ ∃ a ∈ as, p ∈ (f a).found := by
  induction as with
  | nil => simp [along, nothing]
  | cons a as ih =>
    rw [List.forall_mem_cons] at whole
    rw [along, mem_append whole.1, ih whole.2, List.exists_mem_cons_iff]

theorem andThen_fault? {f : Path → Search} : (search.andThen f).fault? = none ↔
    (∀ q ∈ search.found, (f q).fault? = none) ∧ search.fault? = none := by
  rw [Search.andThen, append_fault?, along_fault?]

theorem mem_andThen {f : Path → Search} (whole : ∀ q ∈ search.found, (f q).fault? = none) :
    p ∈ (search.andThen f).found ↔ ∃ q ∈ search.found, p ∈ (f q).found := by
  rw [Search.andThen, mem_append (along_fault?.2 whole), mem_along whole]
  simp

/-- Whether the search is ended by nothing but such faults. -/
def FailsOnly (allowed : Fault → Prop) (search : Search) : Prop :=
  ∀ ⦃fault⦄, search.fault? = some fault → allowed fault

section

variable {allowed : Fault → Prop}

theorem failsOnly_of_none (whole : search.fault? = none) : search.FailsOnly allowed := by
  intro fault failed
  rw [whole] at failed
  cases failed

theorem failsOnly_failing {fault : Fault} (fits : allowed fault) :
    (failing fault).FailsOnly allowed := by
  intro fault' failed
  rwa [← Option.some.inj failed]

theorem FailsOnly.append (fails : first.FailsOnly allowed) (fails' : later.FailsOnly allowed) :
    (first.append later).FailsOnly allowed := by
  rw [Search.append]
  cases here : first.fault? with
  | none => exact fails'
  | some fault => exact fails

theorem failsOnly_along (fails : ∀ a ∈ as, (f a).FailsOnly allowed) :
    (along f as).FailsOnly allowed := by
  induction as with
  | nil => exact failsOnly_of_none rfl
  | cons a as ih =>
    rw [List.forall_mem_cons] at fails
    exact fails.1.append (ih fails.2)

theorem FailsOnly.andThen {f : Path → Search} (fails : search.FailsOnly allowed)
    (later : ∀ q, (f q).FailsOnly allowed) : (search.andThen f).FailsOnly allowed :=
  (failsOnly_along fun q _ => later q).append fun _ failed => fails failed

theorem FailsOnly.tolerant (fails : search.FailsOnly allowed) :
    search.tolerant.FailsOnly allowed := by
  rw [Search.tolerant]
  split
  · split
    · exact failsOnly_of_none rfl
    · exact fails
  · exact fails

end

/-- Whether it is not for want of a permission that the search ends. -/
abbrev IsSettled (search : Search) : Prop :=
  search.FailsOnly fun fault => ∀ e, fault = .storage e → e.cause.isPermission = false

theorem IsSettled.tolerant_eq (settled : search.IsSettled) : search.tolerant = search := by
  rw [Search.tolerant]
  split
  · rename_i e failed
    rw [settled failed e rfl]
    rfl
  · rfl

theorem isSettled_tolerant (search : Search) : search.tolerant.IsSettled := by
  rw [Search.tolerant]
  split
  · rename_i e failed
    cases permission : e.cause.isPermission with
    | true => exact failsOnly_of_none rfl
    | false =>
      rintro fault failed' e' rfl
      rw [if_neg Bool.false_ne_true, failed] at failed'
      cases failed'
      exact permission
  · rename_i other
    rintro fault failed e rfl
    exact absurd failed (other e)

@[simp] theorem found_tolerant (search : Search) : search.tolerant.found = search.found := by
  rw [Search.tolerant]
  split
  · split <;> rfl
  · rfl

theorem fault?_tolerant_failing {cause : StorageCause} {stage : Stage} :
    (failing (.storage ⟨cause, p, stage⟩)).tolerant.fault? = none ↔ cause.isPermission = true := by
  cases permission : cause.isPermission <;> simp [failing, Search.tolerant, permission]

end Search

open Search

variable {v : View} {p q directory : Path} {down : Location} {signs : List Sign}

/-! ## Directories -/

theorem isSettled_directories (v : View) (p : Path) : (directories v p).IsSettled := by
  rw [directories]
  exact (failsOnly_of_none rfl).append (isSettled_tolerant _)

theorem directories_of_error {cause : StorageCause} (refused : v.names p = .error cause) :
    directories v p = (single p).append (failing (.storage ⟨cause, p, .reaching⟩)).tolerant := by
  rw [directories]
  split
  · rename_i here
    rw [refused] at here
    rw [Except.error.inj here]
  · rename_i here
    rw [refused] at here
    cases here

theorem directories_of_ok {found : List (Text × EntryKind)} (listed : v.names p = .ok found) :
    directories v p = (single p).append (along (fun entry =>
      if entry.2 = .directory then directories v (p.child entry.1) else nothing) found) := by
  rw [directories]
  split
  · rename_i here
    rw [listed] at here
    cases here
  · rename_i here
    rw [listed] at here
    rw [Except.ok.inj here, IsSettled.tolerant_eq]
    refine failsOnly_along fun entry _ => ?_
    obtain ⟨name, kind⟩ := entry
    dsimp only
    split
    · exact isSettled_directories v _
    · exact failsOnly_of_none rfl

theorem failsOnly_directories {allowed : Fault → Prop}
    (fits : ∀ cause p, allowed (.storage ⟨cause, p, .reaching⟩)) (p : Path) :
    (directories v p).FailsOnly allowed := by
  induction p using v.shows_induction with
  | step p ih =>
    cases listed : v.names p with
    | error cause =>
      rw [directories_of_error listed]
      exact (failsOnly_of_none rfl).append (failsOnly_failing (fits cause p)).tolerant
    | ok found =>
      rw [directories_of_ok listed]
      refine (failsOnly_of_none rfl).append (failsOnly_along fun entry mem => ?_)
      split
      · rename_i isDirectory
        exact ih _ ((View.shows_iff listed).2 (isDirectory ▸ mem))
      · exact failsOnly_of_none rfl

/-- Directories are found whole when each of them can be listed or may not be. -/
theorem directories_fault? : (directories v p).fault? = none ↔
    ∀ down, v.Leads p down .directory →
      ∀ cause, v.names (p.below down) = .error cause → cause.isPermission = true := by
  induction p using v.shows_induction with
  | step p ih =>
    cases listed : v.names p with
    | error cause =>
      rw [directories_of_error listed, append_fault?, fault?_tolerant_failing]
      constructor
      · rintro ⟨-, permission⟩ down leads cause' refused
        obtain rfl := (View.leads_iff_of_error listed).1 leads
        rw [Path.below_nil, listed] at refused
        rwa [← Except.error.inj refused]
      · exact fun all => ⟨rfl, all [] (.here p) cause (by rwa [Path.below_nil])⟩
    | ok found =>
      rw [directories_of_ok listed, append_fault?, along_fault?]
      constructor
      · rintro ⟨-, all⟩ down leads cause refused
        cases down with
        | nil =>
          rw [Path.below_nil, listed] at refused
          cases refused
        | cons name down =>
          obtain ⟨shown, leads⟩ := View.leads_cons.1 leads
          have whole := all _ ((View.shows_iff listed).1 shown)
          rw [if_pos rfl, ih name shown] at whole
          exact whole down leads cause (by rwa [Path.child_below])
      · refine fun all => ⟨rfl, fun entry mem => ?_⟩
        split
        · rename_i isDirectory
          have shown : v.Shows p entry.1 .directory :=
            (View.shows_iff listed).2 (isDirectory ▸ mem)
          refine (ih _ shown).2 fun down leads cause refused => ?_
          rw [Path.child_below] at refused
          exact all _ (View.leads_cons.2 ⟨shown, leads⟩) cause refused
        · rfl

theorem mem_directories (whole : (directories v p).fault? = none) :
    q ∈ (directories v p).found ↔ ∃ down, q = p.below down ∧ v.Leads p down .directory := by
  induction p using v.shows_induction with
  | step p ih =>
    cases listed : v.names p with
    | error cause =>
      rw [directories_of_error listed, mem_append rfl, found_tolerant]
      simp [View.leads_iff_of_error listed, single, failing, Path.below_nil]
    | ok found =>
      rw [directories_of_ok listed, append_fault?, along_fault?] at whole
      rw [directories_of_ok listed, mem_append rfl, mem_along whole.2]
      constructor
      · rintro (here | ⟨entry, mem, inside⟩)
        · exact ⟨[], by rw [Path.below_nil]; exact List.mem_singleton.1 here, .here p⟩
        · have whole := whole.2 entry mem
          split at inside
          · rename_i isDirectory
            have shown : v.Shows p entry.1 .directory :=
              (View.shows_iff listed).2 (isDirectory ▸ mem)
            rw [if_pos isDirectory] at whole
            obtain ⟨down, rfl, leads⟩ := (ih _ shown whole).1 inside
            exact ⟨_, Path.child_below p entry.1 down, View.leads_cons.2 ⟨shown, leads⟩⟩
          · cases inside
      · rintro ⟨down, rfl, leads⟩
        cases down with
        | nil => exact .inl (by rw [Path.below_nil]; exact List.mem_cons_self)
        | cons name down =>
          obtain ⟨shown, leads⟩ := View.leads_cons.1 leads
          have mem := (View.shows_iff listed).1 shown
          have whole := whole.2 _ mem
          refine .inr ⟨_, mem, ?_⟩
          rw [if_pos rfl] at whole ⊢
          exact (ih name shown whole).2 ⟨down, (Path.child_below p name down).symm, leads⟩

/-! ## Names that fit -/

theorem select_of_error {cause : StorageCause} (refused : v.names q = .error cause) :
    select v q [.pattern signs] = (failing (.storage ⟨cause, q, .reaching⟩)).tolerant := by
  rw [select, refused]

theorem select_of_ok {found : List (Text × EntryKind)} (listed : v.names q = .ok found) :
    select v q [.pattern signs] = along (fun entry =>
      if matchesText signs entry.1 = true then single (q.child entry.1) else nothing) found := by
  rw [select, listed]
  simp only [List.isEmpty_nil, if_true, Bool.true_and, select]
  refine IsSettled.tolerant_eq (failsOnly_along fun entry _ => failsOnly_of_none ?_)
  split <;> rfl

theorem failsOnly_select {allowed : Fault → Prop}
    (fits : ∀ cause p, allowed (.storage ⟨cause, p, .reaching⟩)) (q : Path) :
    (select v q [.pattern signs]).FailsOnly allowed := by
  cases listed : v.names q with
  | error cause =>
    rw [select_of_error listed]
    exact (failsOnly_failing (fits cause q)).tolerant
  | ok found =>
    rw [select_of_ok listed]
    refine failsOnly_along fun entry _ => failsOnly_of_none ?_
    split <;> rfl

theorem select_fault? : (select v q [.pattern signs]).fault? = none ↔
    ∀ cause, v.names q = .error cause → cause.isPermission = true := by
  cases listed : v.names q with
  | error cause => simp [select_of_error listed, fault?_tolerant_failing]
  | ok found =>
    rw [select_of_ok listed, along_fault?]
    refine ⟨fun _ => nofun, fun _ entry _ => ?_⟩
    split <;> rfl

theorem mem_select : p ∈ (select v q [.pattern signs]).found ↔
    ∃ name kind, p = q.child name ∧ v.Shows q name kind ∧ matchesText signs name = true := by
  cases listed : v.names q with
  | error cause =>
    rw [select_of_error listed, found_tolerant]
    simp [failing, View.Shows, listed]
  | ok found =>
    rw [select_of_ok listed, mem_along fun entry _ => by split <;> rfl]
    constructor
    · rintro ⟨entry, mem, inside⟩
      split at inside
      · rename_i fits
        exact ⟨entry.1, entry.2, List.mem_singleton.1 inside, (View.shows_iff listed).2 mem, fits⟩
      · cases inside
    · rintro ⟨name, kind, rfl, shown, fits⟩
      refine ⟨_, (View.shows_iff listed).1 shown, ?_⟩
      rw [if_pos fits]
      exact List.mem_cons_self

/-! ## Searches at any depth -/

theorem select_anyDepth_fault? :
    (select v directory [.anyDepth, .pattern signs]).fault? = none ↔
      ∀ down, v.Leads directory down .directory →
        ∀ cause, v.names (directory.below down) = .error cause → cause.isPermission = true := by
  rw [select, once, andThen_fault?, directories_fault?]
  refine ⟨fun both => both.2, fun all => ⟨fun q mem => ?_, all⟩⟩
  obtain ⟨down, rfl, leads⟩ := (mem_directories (directories_fault?.2 all)).1 mem
  exact select_fault?.2 (all down leads)

theorem failsOnly_select_anyDepth {allowed : Fault → Prop}
    (fits : ∀ cause p, allowed (.storage ⟨cause, p, .reaching⟩)) (directory : Path) :
    (select v directory [.anyDepth, .pattern signs]).FailsOnly allowed := by
  rw [select]
  exact (failsOnly_directories fits directory).andThen (failsOnly_select fits)

theorem mem_select_anyDepth
    (whole : (select v directory [.anyDepth, .pattern signs]).fault? = none) :
    p ∈ (select v directory [.anyDepth, .pattern signs]).found ↔
      ∃ down kind, p = directory.below down ∧ v.Leads directory down kind ∧
        View.EndsIn (matchesText signs · = true) down := by
  rw [select, once] at whole ⊢
  obtain ⟨each, all⟩ := andThen_fault?.1 whole
  rw [List.mem_eraseDups, mem_andThen each]
  constructor
  · rintro ⟨q, mem, inside⟩
    obtain ⟨down, rfl, leads⟩ := (mem_directories all).1 mem
    obtain ⟨name, kind, rfl, shown, fits⟩ := mem_select.1 inside
    exact ⟨_, kind, Path.below_child _ _ _, View.leads_concat.2 ⟨leads, shown⟩,
      View.endsIn_iff.2 ⟨down, name, rfl, fits⟩⟩
  · rintro ⟨down, kind, rfl, leads, ends⟩
    obtain ⟨front, name, rfl, fits⟩ := View.endsIn_iff.1 ends
    obtain ⟨leads, shown⟩ := View.leads_concat.1 leads
    exact ⟨_, (mem_directories all).2 ⟨front, rfl, leads⟩,
      mem_select.2 ⟨name, kind, (Path.below_child _ _ _).symm, shown, fits⟩⟩

/-! ## Files below a directory -/

variable {pattern : Text} {paths : List Path} (parted : parts pattern = .ok [.pattern signs])
  (there : v.isDirectory directory = .ok true)
include parted there

theorem filesBelow_eq : filesBelow v directory pattern = .ok paths ↔
    (∀ p ∈ (select v directory [.anyDepth, .pattern signs]).found,
      ∃ found, v.isFile p = .ok found) ∧
    (select v directory [.anyDepth, .pattern signs]).fault? = none ∧
    paths = Path.sort ((select v directory [.anyDepth, .pattern signs]).found.filter
      (v.isFile · = .ok true)) := by
  rw [filesBelow, parted, ok_bind, there, ok_bind, if_pos rfl, bind_eq_ok]
  constructor
  · rintro ⟨files, filtered, ends⟩
    obtain ⟨asked, rfl⟩ := filterM_eq_ok.1 filtered
    split at ends
    · rename_i whole
      exact ⟨asked, whole, (Except.ok.inj ends).symm⟩
    · cases ends
  · rintro ⟨asked, whole, rfl⟩
    refine ⟨_, filterM_eq_ok.2 ⟨asked, rfl⟩, ?_⟩
    rw [whole]
    rfl

theorem filesBelow_of_perm
    (asked : ∀ p ∈ (select v directory [.anyDepth, .pattern signs]).found,
      (v.isFile p).toOption.isSome = true)
    (whole : (select v directory [.anyDepth, .pattern signs]).fault? = none)
    (same : ((select v directory [.anyDepth, .pattern signs]).found.filter
      (v.isFile · = .ok true)).Perm paths)
    (sorted : paths.Pairwise fun p q => p.le q = true) :
    filesBelow v directory pattern = .ok paths :=
  (filesBelow_eq parted there).2 ⟨fun p mem => exists_eq_ok (asked p mem), whole,
    (Path.sort_of_perm same sorted).symm⟩

theorem exists_filesBelow : (∃ paths, filesBelow v directory pattern = .ok paths) ↔
    v.Answers directory (matchesText signs · = true) := by
  simp only [filesBelow_eq parted there]
  constructor
  · rintro ⟨-, asked, whole, -⟩
    refine ⟨select_anyDepth_fault?.1 whole, fun down kind leads ends => ?_⟩
    exact asked _ ((mem_select_anyDepth whole).2 ⟨down, kind, rfl, leads, ends⟩)
  · intro answers
    have whole : (select v directory [.anyDepth, .pattern signs]).fault? = none :=
      select_anyDepth_fault?.2 answers.lists
    refine ⟨_, fun p mem => ?_, whole, rfl⟩
    obtain ⟨down, kind, rfl, leads, ends⟩ := (mem_select_anyDepth whole).1 mem
    exact answers.tells down kind leads ends

/-- The files that are found are those that the directory leads to, each once, in the order of
paths. -/
theorem mem_filesBelow (found : filesBelow v directory pattern = .ok paths) :
    paths.Nodup ∧ paths.Pairwise (fun p q => p.le q = true) ∧
      ∀ p, p ∈ paths ↔ ∃ down kind, p = directory.below down ∧ v.Leads directory down kind ∧
        View.EndsIn (matchesText signs · = true) down ∧ v.isFile p = .ok true := by
  obtain ⟨-, whole, rfl⟩ := (filesBelow_eq parted there).1 found
  have perm := List.mergeSort_perm ((select v directory
    [.anyDepth, .pattern signs]).found.filter (v.isFile · = .ok true)) Path.le
  refine ⟨perm.nodup_iff.2 (List.filter_sublist.nodup ?_), Path.pairwise_sort _, fun p => ?_⟩
  · rw [select]
    exact nodup_eraseDups _
  · rw [Path.sort, perm.mem_iff, List.mem_filter, mem_select_anyDepth whole, decide_eq_true_eq]
    constructor
    · rintro ⟨⟨down, kind, same, leads, ends⟩, isFile⟩
      exact ⟨down, kind, same, leads, ends, isFile⟩
    · rintro ⟨down, kind, same, leads, ends, isFile⟩
      exact ⟨⟨down, kind, same, leads, ends⟩, isFile⟩

end Glob

end JavaUnits
