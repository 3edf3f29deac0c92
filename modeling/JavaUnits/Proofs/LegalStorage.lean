import JavaUnits.Proofs.Surveys

/-!
Storages that a system can hold, and what they show. A directory leads to all that lies below it, as
far as the directories on the way are listed. Where nothing is refused they are, unless their paths
are longer than the system can follow.
-/

namespace JavaUnits

open CodePoint Text

namespace Storage

/-- Whether a system can hold the storage: what is there lies in directories, there is one thing at
each place, and no name is too long or holds a null. -/
structure IsLegal (s : Storage) : Prop where
  rooted : s.IsRooted
  once : (s.entries.map Prod.fst).Nodup
  names : ∀ entry ∈ s.entries, ∀ name ∈ entry.1,
    isTooLong name = false ∧ name.contains (ofChar '\x00') = false

instance (s : Storage) : Decidable s.IsLegal :=
  decidable_of_iff (_ ∧ _ ∧ _)
    ⟨fun all => ⟨all.1, all.2.1, all.2.2⟩, fun legal => ⟨legal.1, legal.2, legal.3⟩⟩

variable {s s' : Storage} {directory : Path} {l down : Location} {e : Entry} {kind : EntryKind}

section

variable (legal : s.IsLegal)
include legal

theorem IsLegal.get?_of_mem (mem : (l, e) ∈ s.entries) (more : l ≠ []) : s.get? l = some e := by
  obtain ⟨front, back, split⟩ := List.append_of_mem mem
  rw [get?, if_neg (by simpa using more), List.lookup_eq_some_iff]
  refine ⟨front, back, split, fun taken inside => ?_⟩
  have once := legal.once
  rw [split, List.map_append, List.map_cons, List.nodup_append] at once
  have other := once.2.2 taken.1 (List.mem_map_of_mem inside) l List.mem_cons_self
  simpa using Ne.symm other

theorem IsLegal.mem_iff (more : l ≠ []) : (l, e) ∈ s.entries ↔ s.get? l = some e :=
  ⟨fun mem => legal.get?_of_mem mem more, fun there => exists_entry there more⟩

theorem IsLegal.get?_of_perm (legal' : s'.IsLegal) (perm : s'.entries.Perm s.entries)
    (l : Location) : s'.get? l = s.get? l := by
  by_cases root : l = []
  · rw [root]
    rfl
  · ext e
    rw [← legal.mem_iff root, ← legal'.mem_iff root]
    exact perm.mem_iff

theorem IsLegal.name (there : s.get? l = some e) {name : Text} (inside : name ∈ l) :
    name ≠ Path.parentName ∧ isTooLong name = false ∧ name.contains (ofChar '\x00') = false := by
  have listed := exists_entry there (List.ne_nil_of_mem inside)
  refine ⟨?_, legal.names _ listed name inside⟩
  rintro rfl
  exact legal.rooted.names _ listed inside

theorem IsLegal.parentName_notMem (there : s.get? (directory.place ++ down) = some e) :
    Path.parentName ∉ down :=
  fun mem => (legal.name there (List.mem_append_right _ mem)).1 rfl

theorem IsLegal.hasNull_below (noNull : directory.hasNull = false)
    (there : s.get? (directory.place ++ down) = some e) :
    (directory.below down).hasNull = false := by
  rw [Path.hasNull, Path.below, List.any_append, Bool.or_eq_false_iff]
  refine ⟨noNull, List.any_eq_false.2 fun name inside => ?_⟩
  rw [(legal.name there (List.mem_append_right _ inside)).2.2]
  exact Bool.false_ne_true

end

/-! ## What a directory leads to -/

/-- Whether the directories on a way down are listed. -/
def Lists (s : Storage) (directory : Path) (down : Location) : Prop :=
  ∀ front more, down = front ++ more → more ≠ [] →
    ∃ found, s.list (directory.below front) = .ok found

theorem lists_concat {name : Text} : s.Lists directory (down ++ [name]) ↔
    s.Lists directory down ∧ ∃ found, s.list (directory.below down) = .ok found := by
  constructor
  · intro lists
    refine ⟨fun front more split beyond => ?_, lists down [name] rfl (List.cons_ne_nil _ _)⟩
    exact lists front (more ++ [name]) (by rw [split, List.append_assoc]) (by simp)
  · rintro ⟨lists, last⟩ front more split beyond
    obtain rfl | ⟨more', _, rfl⟩ := List.eq_nil_or_concat more
    · exact absurd rfl beyond
    · rw [List.concat_eq_append, ← List.append_assoc] at split
      obtain ⟨rfl, -⟩ := List.append_inj' split rfl
      by_cases none : more' = []
      · rwa [none, List.append_nil] at last
      · exact lists front more' rfl none

theorem shows_iff_list {p : Path} {name : Text} : s.view.Shows p name kind ↔
    (∃ found, s.list p = .ok found) ∧ ∃ e, e.kind = kind ∧ (p.place ++ [name], e) ∈ s.entries := by
  rw [shows_view, ← and_assoc]
  refine and_congr_left fun _ => ?_
  constructor
  · exact fun both => ⟨_, list_eq_ok.2 ⟨both.1, both.2, rfl⟩⟩
  · rintro ⟨found, listed⟩
    obtain ⟨there, allowed, -⟩ := list_eq_ok.1 listed
    exact ⟨there, allowed⟩

theorem names_view_eq_error {p : Path} {cause : StorageCause} :
    s.view.names p = .error cause ↔ s.list p = .error cause := by
  simp only [view]
  cases s.list p <;> simp [Except.map]

/-- A directory leads to what lies below it, as far as the directories on the way are listed. -/
theorem IsLegal.leads_iff (legal : s.IsLegal)
    (there : s.view.isDirectory directory = .ok true) : s.view.Leads directory down kind ↔
      s.Lists directory down ∧ ∃ e, e.kind = kind ∧ s.get? (directory.place ++ down) = some e := by
  have top := (status_eq_some.1 (View.isDirectory_eq_true.1 there).2).2
  induction down using List.reverseRecOn generalizing kind with
  | nil =>
    rw [List.append_nil, top]
    constructor
    · intro leads
      cases leads
      exact ⟨fun front more split beyond => absurd (List.append_eq_nil_iff.1 split.symm).2 beyond,
        .directory, rfl, rfl⟩
    · rintro ⟨-, e, rfl, same⟩
      rw [← Option.some.inj same]
      exact .here directory
  | append_singleton down name ih =>
    have above : s.view.Leads directory down .directory ↔ s.Lists directory down ∧
        ∃ e, e.kind = .directory ∧ s.get? (directory.place ++ down) = some e := ih
    rw [View.leads_concat, above, shows_iff_list, lists_concat, ← List.append_assoc]
    constructor
    · rintro ⟨⟨lists, e, -, here⟩, listed, e', same, mem⟩
      rw [Path.place_below (legal.parentName_notMem here)] at mem
      exact ⟨⟨lists, listed⟩, e', same, legal.get?_of_mem mem (by simp)⟩
    · rintro ⟨⟨lists, listed⟩, e, same, found⟩
      have here : s.get? (directory.place ++ down) = some .directory :=
        legal.rooted.get?_of_append (List.cons_ne_nil name []) found
      refine ⟨⟨lists, .directory, rfl, here⟩, listed, e, same, ?_⟩
      rw [Path.place_below (legal.parentName_notMem here)]
      exact exists_entry found (by simp)

/-! ## The same below a directory -/

/-- Whether in another storage the same lies below the directory, and the system refuses the same
there. -/
structure SameBelow (directory : Path) (s s' : Storage) : Prop where
  get? : ∀ down, s'.get? (directory.place ++ down) = s.get? (directory.place ++ down)
  limits : ∀ down, s'.limitsAt (directory.place ++ down) = s.limitsAt (directory.place ++ down)

namespace SameBelow

variable (same : SameBelow directory s s') (there : s.view.isDirectory directory = .ok true)
  (there' : s'.view.isDirectory directory = .ok true)
include same

theorem walk_eq (names : Path.parentName ∉ down) :
    s'.walk (directory.place ++ l) down = s.walk (directory.place ++ l) down := by
  induction down generalizing l with
  | nil => rfl
  | cons name down ih =>
    rw [List.mem_cons, not_or] at names
    rw [walk, walk, enter, enter, same.get?, same.limits, if_neg (Ne.symm names.1),
      if_neg (Ne.symm names.1), List.append_assoc, ih names.2]

include there there'

theorem locate_eq (names : Path.parentName ∉ down) :
    s'.locate (directory.below down) = s.locate (directory.below down) := by
  have located := (status_eq_some.1 (View.isDirectory_eq_true.1 there).2).1
  have located' := (status_eq_some.1 (View.isDirectory_eq_true.1 there').2).1
  rw [locate, locate, Path.below, walk_append, walk_append, (locate_eq_ok.1 located).2,
    (locate_eq_ok.1 located').2, ok_bind, ok_bind, ← List.append_nil directory.place,
    same.walk_eq names]

theorem status_eq (names : Path.parentName ∉ down) :
    s'.status (directory.below down) = s.status (directory.below down) := by
  rw [status, status, same.locate_eq there there' names]
  cases found : s.locate (directory.below down) with
  | error cause => rfl
  | ok l =>
    rw [locate_eq_place found, Path.place_below names]
    exact congrArg Except.ok (same.get? down)

theorem read_eq (names : Path.parentName ∉ down) :
    s'.read (directory.below down) = s.read (directory.below down) := by
  rw [Storage.read, Storage.read, same.locate_eq there there' names]
  cases found : s.locate (directory.below down) with
  | error cause => rfl
  | ok l =>
    rw [ok_bind, ok_bind, locate_eq_place found, Path.place_below names, same.get?, same.limits]

theorem list_eq_error (names : Path.parentName ∉ down) {cause : StorageCause} :
    s'.list (directory.below down) = .error cause ↔
      s.list (directory.below down) = .error cause := by
  rw [list, list, same.locate_eq there there' names]
  cases found : s.locate (directory.below down) with
  | error cause => rfl
  | ok l =>
    rw [ok_bind, ok_bind, locate_eq_place found, Path.place_below names, same.get?, same.limits]
    rcases s.get? (directory.place ++ down) with _ | _ | content
    · rfl
    · cases (s.limitsAt (directory.place ++ down)).listing <;> simp [heed, pure_eq_ok]
    · rfl

theorem view (legal : s.IsLegal) (legal' : s'.IsLegal) :
    View.SameBelow directory s.view s'.view where
  top := by rw [there, there']
  shows := fun down leads name kind => by
    obtain ⟨-, e, -, here⟩ := (legal.leads_iff there).1 leads
    have names := legal.parentName_notMem here
    have entry (e : Entry) : ((directory.below down).place ++ [name], e) ∈ s'.entries ↔
        ((directory.below down).place ++ [name], e) ∈ s.entries := by
      rw [legal.mem_iff (by simp), legal'.mem_iff (by simp), Path.place_below names,
        List.append_assoc, same.get?]
    rw [shows_iff_list, shows_iff_list]
    simp only [entry]
    refine and_congr_left fun _ => ?_
    cases listed : s.list (directory.below down) with
    | error cause => simp [(same.list_eq_error there there' names).2 listed]
    | ok found =>
      cases listed' : s'.list (directory.below down) with
      | ok found' => simp
      | error cause =>
        rw [(same.list_eq_error there there' names).1 listed'] at listed
        cases listed
  refuses := fun down leads cause => by
    obtain ⟨-, e, -, here⟩ := (legal.leads_iff there).1 leads
    rw [names_view_eq_error, names_view_eq_error]
    exact same.list_eq_error there there' (legal.parentName_notMem here)
  status := fun down kind leads _ => by
    obtain ⟨-, e, -, here⟩ := (legal.leads_iff there).1 leads
    exact same.status_eq there there' (legal.parentName_notMem here)
  read := fun down kind leads _ => by
    obtain ⟨-, e, -, here⟩ := (legal.leads_iff there).1 leads
    exact same.read_eq there there' (legal.parentName_notMem here)

end SameBelow

/-! ## Where nothing is refused -/

/-- Whether the system can follow the paths of the directories below one, and of whatever is named
like a source there. -/
def Reaches (s : Storage) (directory : Path) : Prop :=
  ∀ down e, s.get? (directory.place ++ down) = some e → e = .directory ∨ LeadsToSource down →
    Utf8.size (directory.below down).toText < pathLimit

theorem short_of_listed
    (listed : ∀ cause, s.view.names (directory.below down) = .error cause →
      cause.isPermission = true) : Utf8.size (directory.below down).toText < pathLimit := by
  by_contra long
  have refused : s.list (directory.below down) = .error .nameTooLong := by
    rw [list, locate, if_pos (Nat.le_of_not_lt long)]
    rfl
  cases listed _ (names_view_eq_error.2 refused)

theorem limitsAt_of_free (free : s.limits = []) (l : Location) : s.limitsAt l = {} := by
  rw [limitsAt, free]
  rfl

section

variable (legal : s.IsLegal) (free : s.limits = [])
  (there : s.view.isDirectory directory = .ok true)
include legal free

theorem IsLegal.walk_down (there : s.get? (l ++ down) = some e) :
    s.walk l down = .ok (l ++ down) := by
  induction down generalizing l with
  | nil => rw [walk, List.append_nil]
  | cons name down ih =>
    have here := legal.rooted.get?_of_append (by simp) there
    have inside : name ∈ l ++ name :: down := by simp
    obtain ⟨other, short, -⟩ := legal.name there inside
    rw [List.append_cons] at there ⊢
    rw [walk_cons_eq_ok, if_neg other]
    exact ⟨enter_eq_ok.2 ⟨here, by rw [limitsAt_of_free free]⟩, short, ih there⟩

include there

theorem IsLegal.status_below (found : s.get? (directory.place ++ down) = some e)
    (short : Utf8.size (directory.below down).toText < pathLimit) :
    s.status (directory.below down) = .ok (some e) := by
  have located := (status_eq_some.1 (View.isDirectory_eq_true.1 there).2).1
  rw [status_eq_some, locate_eq_ok, Path.place_below (legal.parentName_notMem found)]
  refine ⟨⟨short, ?_⟩, found⟩
  rw [Path.below, walk_append, (locate_eq_ok.1 located).2]
  exact legal.walk_down free found

theorem IsLegal.list_below (found : s.get? (directory.place ++ down) = some .directory)
    (short : Utf8.size (directory.below down).toText < pathLimit) :
    ∃ entries, s.list (directory.below down) = .ok entries := by
  refine ⟨_, list_eq_ok.2 ⟨legal.status_below free there found short, ?_, rfl⟩⟩
  rw [limitsAt_of_free free]

theorem IsLegal.isFile_below (noNull : directory.hasNull = false)
    (found : s.get? (directory.place ++ down) = some e)
    (short : Utf8.size (directory.below down).toText < pathLimit) :
    s.view.isFile (directory.below down) = .ok true ↔ ∃ content, e = .file content := by
  have status : s.view.status (directory.below down) = .ok (some e) :=
    legal.status_below free there found short
  rw [View.isFile_eq_true, status]
  simp [legal.hasNull_below noNull found]

theorem IsLegal.lists_of_reaches (reaches : s.Reaches directory)
    (found : s.get? (directory.place ++ down) = some e) : s.Lists directory down := by
  rintro front more rfl beyond
  rw [← List.append_assoc] at found
  have here := legal.rooted.get?_of_append beyond found
  exact legal.list_below free there here (reaches front _ here (.inl rfl))

/-- A directory leads to all that lies below it, where its paths can be followed. -/
theorem IsLegal.leads_iff_of_reaches (reaches : s.Reaches directory) :
    s.view.Leads directory down kind ↔
      ∃ e, e.kind = kind ∧ s.get? (directory.place ++ down) = some e := by
  rw [legal.leads_iff there, and_iff_right_iff_imp]
  rintro ⟨e, -, found⟩
  exact legal.lists_of_reaches free there reaches found

theorem IsLegal.lists_of_answers {fits : Text → Prop} (answers : s.view.Answers directory fits)
    (found : s.get? (directory.place ++ down) = some e) : s.Lists directory down := by
  induction down using List.reverseRecOn generalizing e with
  | nil =>
    rintro front more split beyond
    exact absurd (List.append_eq_nil_iff.1 split.symm).2 beyond
  | append_singleton down name ih =>
    rw [← List.append_assoc] at found
    have here := legal.rooted.get?_of_append (List.cons_ne_nil name []) found
    have lists := ih here
    refine lists_concat.2 ⟨lists, legal.list_below free there here ?_⟩
    refine short_of_listed (answers.lists down ?_)
    exact (legal.leads_iff there).2 ⟨lists, _, rfl, here⟩

/-- Where nothing is refused, the system answers just where it can follow the paths. -/
theorem IsLegal.answers_iff (noNull : directory.hasNull = false) :
    s.view.Answers directory (sourceExtension <:+ ·) ↔ s.Reaches directory := by
  constructor
  · intro answers down e found asked
    have leads : s.view.Leads directory down e.kind :=
      (legal.leads_iff there).2 ⟨legal.lists_of_answers free there answers found, e, rfl, found⟩
    rcases asked with rfl | ends
    · exact short_of_listed (answers.lists down leads)
    · by_contra long
      obtain ⟨isFile, asked⟩ := answers.tells down e.kind leads ends
      have refused : s.view.status (directory.below down) = .error .nameTooLong := by
        show s.status _ = _
        rw [status, locate, if_pos (Nat.le_of_not_lt long)]
        rfl
      rw [View.isFile, View.lookUp, legal.hasNull_below noNull found, refused] at asked
      cases asked
  · intro reaches
    refine ⟨fun down leads cause refused => ?_, fun down kind leads ends => ?_⟩
    · obtain ⟨e, isDirectory, found⟩ := (legal.leads_iff_of_reaches free there reaches).1 leads
      obtain rfl : e = .directory := by
        cases e with
        | directory => rfl
        | file => cases isDirectory
      obtain ⟨entries, listed⟩ := legal.list_below free there found
        (reaches down _ found (.inl rfl))
      rw [names_view_eq_error, listed] at refused
      cases refused
    · obtain ⟨e, -, found⟩ := (legal.leads_iff_of_reaches free there reaches).1 leads
      have status : s.view.status (directory.below down) = .ok (some e) :=
        legal.status_below free there found (reaches down _ found (.inr ends))
      rw [View.isFile, View.lookUp_eq_ok.2 (.inr ⟨legal.hasNull_below noNull found, status⟩)]
      cases e <;> exact ⟨_, rfl⟩

/-- Where the paths can be followed, all files with names of sources are led to. -/
theorem IsLegal.mem_sources_iff (noNull : directory.hasNull = false)
    (reaches : s.Reaches directory) {p : Path} :
    (∃ down kind, p = directory.below down ∧ s.view.Leads directory down kind ∧
      LeadsToSource down ∧ s.view.isFile p = .ok true) ↔
    ∃ down content, p = directory.below down ∧
      s.get? (directory.place ++ down) = some (.file content) ∧ LeadsToSource down := by
  constructor
  · rintro ⟨down, kind, rfl, leads, ends, isFile⟩
    obtain ⟨e, -, found⟩ := (legal.leads_iff_of_reaches free there reaches).1 leads
    have short := reaches down e found (.inr ends)
    obtain ⟨content, rfl⟩ := (legal.isFile_below free there noNull found short).1 isFile
    exact ⟨down, content, rfl, found, ends⟩
  · rintro ⟨down, content, rfl, found, ends⟩
    have short := reaches down _ found (.inr ends)
    exact ⟨down, _, rfl, (legal.leads_iff_of_reaches free there reaches).2 ⟨_, rfl, found⟩, ends,
      (legal.isFile_below free there noNull found short).2 ⟨content, rfl⟩⟩

end

end Storage

end JavaUnits
