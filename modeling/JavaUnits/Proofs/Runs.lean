import JavaUnits.Proofs.Footprint
import JavaUnits.Proofs.Views

/-!
Runs that end well: what an action that succeeds has found, and what it has done. A directory that
was made is there, and a file that was written holds the text in UTF-8.
-/

namespace JavaUnits

namespace Storage

variable {p : Path} {s s' s'' : Storage} {l : Location} {e : Entry}

theorem keepsDirectories_refl (s : Storage) : s.KeepsDirectories s :=
  ⟨rfl, fun _ there => there⟩

theorem KeepsDirectories.trans (first : s.KeepsDirectories s') (later : s'.KeepsDirectories s'') :
    s.KeepsDirectories s'' :=
  ⟨later.limits.trans first.limits, fun l there => later.directory l (first.directory l there)⟩

/-- Where directories stay, a path leads to what has come to its place. -/
theorem status_of_keeps (keeps : s.KeepsDirectories s') {e' : Entry}
    (there : s.status p = .ok (some e)) (now : s'.get? p.place = some e') :
    s'.status p = .ok (some e') :=
  status_eq_some.2 ⟨locate_of_keeps keeps (status_eq_some.1 there).1, now⟩

/-- Whether the file at a path can be read as source text, and what it reads. -/
def HoldsSource (s : Storage) (p : Path) (text : Text) : Prop :=
  ∃ content raw, s.status p = .ok (some (.file content)) ∧
    Text.Utf8.decodeMarked content = .ok raw ∧ text = raw.unifyBreaks

theorem HoldsSource.unique {text text' : Text} (holds : s.HoldsSource p text)
    (holds' : s.HoldsSource p text') : text' = text := by
  obtain ⟨content, raw, there, decoded, rfl⟩ := holds
  obtain ⟨content', raw', there', decoded', rfl⟩ := holds'
  rw [there, Except.ok.injEq, Option.some.injEq, Entry.file.injEq] at there'
  rw [← there', decoded, Except.ok.injEq] at decoded'
  rw [decoded']

theorem holdsSource_of_readSource {text : Text} (read : s.view.readSource p = .ok text) :
    p.hasNull = false ∧ s.HoldsSource p text := by
  obtain ⟨content, raw, found, decoded, rfl⟩ := View.readSource_eq_ok.1 read
  obtain ⟨noNull, found⟩ := View.content_eq_ok.1 found
  exact ⟨noNull, content, raw, (read_eq_ok.1 found).1, decoded, rfl⟩

end Storage

namespace Action

open Storage

variable {α β : Type} {p : Path} {s s' : Storage}

theorem bind_eq_ok {action : Action α} {f : α → Action β} {b : β}
    (ran : (action >>= f).run.run s = (.ok b, s')) :
    ∃ a m, action.run.run s = (.ok a, m) ∧ (f a).run.run m = (.ok b, s') := by
  rw [run_bind] at ran
  rcases first : action.run.run s with ⟨fault | a, m⟩
  · rw [first] at ran
    cases ran
  · rw [first] at ran
    exact ⟨a, m, rfl, ran⟩

theorem pure_eq_ok {a b : α} (ran : (pure a : Action α).run.run s = (.ok b, s')) :
    b = a ∧ s' = s := by
  obtain ⟨same, rest⟩ := Prod.mk.inj ran
  exact ⟨(Except.ok.inj same).symm, rest.symm⟩

theorem throw_ne_ok {fault : Fault} {b : α} :
    (throw fault : Action α).run.run s ≠ (.ok b, s') := by
  intro ran
  cases (Prod.mk.inj ran).1

theorem IsReading.eq_of_ok {action : Action α} {a : α} (reading : action.IsReading)
    (ran : action.run.run s = (.ok a, s')) : s' = s := by
  have same := reading s
  rwa [ran] at same

theorem IsReading.bind_eq_ok {action : Action α} {f : α → Action β} {b : β}
    (reading : action.IsReading) (ran : (action >>= f).run.run s = (.ok b, s')) :
    ∃ a, action.run.run s = (.ok a, s) ∧ (f a).run.run s = (.ok b, s') := by
  obtain ⟨a, m, first, later⟩ := Action.bind_eq_ok ran
  obtain rfl := reading.eq_of_ok first
  exact ⟨a, first, later⟩

/-- What holds of every failure on the storage as it is, and of what follows when the reading
succeeds, holds of a sequence that begins with a reading action. -/
theorem IsReading.bind_cases {P : Except Fault β × Storage → Prop} {action : Action α}
    {f : α → Action β} (reading : action.IsReading) (failed : ∀ fault, P (.error fault, s))
    (rest : ∀ a, action.run.run s = (.ok a, s) → P ((f a).run.run s)) :
    P ((action >>= f).run.run s) := by
  have same := reading s
  rw [run_bind]
  rcases ran : action.run.run s with ⟨fault | a, m⟩ <;> rw [ran] at same
  · obtain rfl : m = s := same
    exact failed fault
  · obtain rfl : m = s := same
    exact rest a ran

theorem wrapErrors_eq_ok {action : Action α} {wrap : StorageError → Fault} {a : α}
    (ran : (wrapErrors wrap action).run.run s = (.ok a, s')) : action.run.run s = (.ok a, s') := by
  rw [run_wrapErrors] at ran
  rcases first : action.run.run s with ⟨fault | b, m⟩
  · rw [first] at ran
    cases fault <;> cases ran
  · rw [first] at ran
    exact ran

theorem run_checkPath (noNull : p.hasNull = false) (s : Storage) :
    (checkPath p).run.run s = (.ok (), s) := by
  rw [checkPath, noNull]
  rfl

theorem checkPath_eq_ok (ran : (checkPath p).run.run s = (.ok (), s')) : p.hasNull = false := by
  rw [checkPath] at ran
  split at ran
  · exact absurd ran throw_ne_ok
  · rename_i none
    simpa using none

/-! ## What is there -/

theorem ask_eq_ok {question : View → Except Fault α} {a : α}
    (ran : (ask question).run.run s = (.ok a, s')) : question s.view = .ok a ∧ s' = s := by
  rw [run_ask, Prod.mk.injEq] at ran
  exact ⟨ran.1, ran.2.symm⟩

theorem exists?_eq_true (ran : (exists? p).run.run s = (.ok true, s')) :
    p.hasNull = false ∧ ∃ e, s.status p = .ok (some e) := by
  have asked : s.view.exists? p = .ok true := (ask_eq_ok ran).1
  exact (View.exists?_eq_ok asked).1 rfl

theorem isDirectory_eq_true (ran : (isDirectory p).run.run s = (.ok true, s')) :
    p.hasNull = false ∧ s.status p = .ok (some .directory) := by
  have asked : s.view.isDirectory p = .ok true := (ask_eq_ok ran).1
  exact View.isDirectory_eq_true.1 asked

theorem run_exists? (noNull : p.hasNull = false) {e : Entry} (there : s.status p = .ok (some e)) :
    (exists? p).run.run s = (.ok true, s) := by
  have found : s.view.lookUp p = .ok (some e) := View.lookUp_eq_ok.2 (.inr ⟨noNull, there⟩)
  rw [exists?, run_ask, View.exists?, found]
  rfl

theorem run_isFile (noNull : p.hasNull = false) {content : Bytes}
    (there : s.status p = .ok (some (.file content))) :
    (isFile p).run.run s = (.ok true, s) := by
  rw [isFile, run_ask, View.isFile_eq_true.2 ⟨noNull, content, there⟩]

theorem run_isDirectory (noNull : p.hasNull = false)
    (there : s.status p = .ok (some .directory)) :
    (isDirectory p).run.run s = (.ok true, s) := by
  rw [isDirectory, run_ask, View.isDirectory_eq_true.2 ⟨noNull, there⟩]

theorem readSource_eq_ok {text : Text} (ran : (readSource p).run.run s = (.ok text, s')) :
    p.hasNull = false ∧ s.HoldsSource p text :=
  holdsSource_of_readSource (ask_eq_ok ran).1

/-! ## What was made -/

theorem makeDirectoryOr_eq_ok {orElse : Action Unit}
    (made : ∀ {s s'}, orElse.run.run s = (.ok (), s') → s'.status p = .ok (some .directory))
    (ran : (makeDirectoryOr p orElse).run.run s = (.ok (), s')) :
    s'.status p = .ok (some .directory) := by
  obtain ⟨_, -, ran⟩ := (isReading_checkPath p).bind_eq_ok ran
  rw [run_get_bind] at ran
  split at ran
  · rename_i grown grows
    obtain rfl : s' = grown := (Prod.mk.inj ran).2.symm
    obtain ⟨l, found, none, rfl⟩ := makeDirectory_eq_ok grows
    obtain rfl := locate_eq_place found
    refine status_eq_some.2 ⟨?_, get?_put_self (ne_nil_of_get?_eq_none none) s _⟩
    exact locate_of_keeps (keepsDirectories_put (by simp [none]) _) found
  · exact made ran
  · obtain ⟨there, looked, ran⟩ := (isReading_ask _).bind_eq_ok ran
    cases there with
    | false => exact absurd ran throw_ne_ok
    | true =>
      rw [(pure_eq_ok ran).2]
      exact (isDirectory_eq_true looked).2

theorem makeDirectories_eq_ok (ran : (makeDirectories p).run.run s = (.ok (), s')) :
    s'.status p = .ok (some .directory) := by
  rw [makeDirectories] at ran
  split at ran
  · exact makeDirectoryOr_eq_ok (fun never => absurd never throw_ne_ok) ran
  · refine makeDirectoryOr_eq_ok (fun ran => ?_) ran
    obtain ⟨_, _, -, ran⟩ := Action.bind_eq_ok ran
    exact makeDirectoryOr_eq_ok (fun never => absurd never throw_ne_ok) ran

theorem hasNull_of_makeDirectories (ran : (makeDirectories p).run.run s = (.ok (), s')) :
    p.hasNull = false := by
  have checked {orElse : Action Unit}
      (ran : (makeDirectoryOr p orElse).run.run s = (.ok (), s')) : p.hasNull = false := by
    obtain ⟨_, checked, -⟩ := (isReading_checkPath p).bind_eq_ok ran
    exact checkPath_eq_ok checked
  rw [makeDirectories] at ran
  split at ran
  · exact checked ran
  · exact checked ran

theorem get?_makeDirectories (there : s.status p = .ok (some .directory)) (l : Location) :
    ((makeDirectories p).run.run s).2.get? l = s.get? l := by
  rcases (growsTo_makeDirectories p s).place l with same | ⟨none, -, n, found⟩
  · exact same
  · rw [locate_eq_place found, get?_front_of_status there] at none
    cases none

/-! ## What was written -/

theorem write_eq_ok {text : Text} (ran : (write p text).run.run s = (.ok (), s')) :
    ∃ content, Text.Utf8.encode text = .ok content ∧ p.hasNull = false ∧
      s.writable p = .ok p.place ∧ s' = s.put p.place (.file content) := by
  have ends := writeEnds_write p text s
  rw [ran] at ends
  cases ends with
  | written found noNull encoded => exact ⟨_, encoded, noNull, found, rfl⟩

theorem status_of_write {text : Text} (ran : (write p text).run.run s = (.ok (), s')) :
    ∃ content, Text.Utf8.encode text = .ok content ∧ p.hasNull = false ∧
      s'.status p = .ok (some (.file content)) := by
  obtain ⟨content, encoded, noNull, found, rfl⟩ := write_eq_ok ran
  obtain ⟨here, free, -⟩ := writable_eq_ok.1 found
  refine ⟨content, encoded, noNull, status_eq_some.2 ⟨?_, get?_put_self ?_ s _⟩⟩
  · exact locate_of_keeps (keepsDirectories_put free _) here
  · rintro root
    rw [root] at free
    exact free rfl

theorem keepsDirectories_writeAll (files : List (Path × Text)) :
    (writeAll files).Keeps KeepsDirectories :=
  keeps_writeAll keepsDirectories_refl (@KeepsDirectories.trans) fun _ _ _ _ found =>
    keepsDirectories_put (writable_eq_ok.1 found).2.1 _

theorem writeAll_eq_ok {files : List (Path × Text)}
    (apart : (files.map fun file => file.1.place).Nodup)
    (ran : (writeAll files).run.run s = (.ok (), s')) :
    ∀ file ∈ files, ∃ content, Text.Utf8.encode file.2 = .ok content ∧
      file.1.hasNull = false ∧ s'.status file.1 = .ok (some (.file content)) := by
  induction files generalizing s with
  | nil => simp
  | cons file files ih =>
    rw [List.map_cons, List.nodup_cons] at apart
    obtain ⟨_, m, first, ran⟩ := Action.bind_eq_ok ran
    rw [List.forall_mem_cons]
    refine ⟨?_, ih apart.2 ran⟩
    obtain ⟨content, encoded, noNull, there⟩ := status_of_write (wrapErrors_eq_ok first)
    have keeps := keepsDirectories_writeAll files m
    have others : (writeAll files).ChangesOnly (fun l => l ∈ files.map fun file => file.1.place)
        (fun _ => False) := changesOnly_writeAll fun file mem => List.mem_map_of_mem mem
    have same := others m file.1.place
    rw [ran] at keeps same
    refine ⟨content, encoded, noNull, status_of_keeps keeps there ?_⟩
    rcases same with same | mine | ⟨-, -, never⟩
    · exact same.trans (status_eq_some.1 there).2
    · exact absurd mine apart.1
    · exact never.elim

/-- A split that succeeds has found a source text, made the directory and written the files. -/
theorem splitFile_eq_ok {source directory : Path} {paths : List Path}
    (ran : (splitFile source directory).run.run s = (.ok paths, s')) :
    ∃ text parts m, s.HoldsSource source text ∧ split text = .ok parts ∧
      (makeDirectories directory).run.run s = (.ok (), m) ∧
      (writeAll (parts.files.map fun file => (directory.child file.1, file.2))).run.run m
        = (.ok (), s') ∧ paths = parts.files.names.map directory.child := by
  obtain ⟨there, -, ran⟩ := (isReading_ask _).bind_eq_ok ran
  cases there with
  | false => exact absurd ran throw_ne_ok
  | true =>
    obtain ⟨text, found, ran⟩ := (isReading_ask _).bind_eq_ok ran
    split at ran
    · exact absurd ran throw_ne_ok
    · rename_i parts splits
      obtain ⟨_, m, made, ran⟩ := Action.bind_eq_ok ran
      obtain ⟨_, m', written, ran⟩ := Action.bind_eq_ok ran
      obtain ⟨rfl, rfl⟩ := pure_eq_ok ran
      refine ⟨text, parts, m, (readSource_eq_ok found).2, splits, wrapErrors_eq_ok made,
        written, ?_⟩
      rw [Files.names, List.map_map, List.map_map]
      rfl

end Action

end JavaUnits
