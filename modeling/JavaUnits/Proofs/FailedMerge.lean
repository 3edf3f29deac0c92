import JavaUnits.Proofs.Location
import JavaUnits.Storage.Sources

/-!
What a merge that fails leaves behind: every file as it was, and at most new directories on the way
to the target. The target itself is lost when something goes wrong after it was opened: when the
text cannot be encoded, or when the system takes only some of its bytes.
-/

namespace JavaUnits

/-- Whether the fault comes when a file that was opened has been emptied already. -/
def Fault.isLate : Fault → Bool
  | unencodable _ => true
  | storage e | cannotWrite _ e => e.stage = .filling
  | _ => false

namespace Storage

variable {p : Path} {s s' s'' : Storage}

/-- Whether every directory stays one, and the system refuses what it refused. -/
structure KeepsDirectories (s s' : Storage) : Prop where
  limits : s'.limits = s.limits
  directory : ∀ l, s.get? l = some .directory → s'.get? l = some .directory

theorem limitsAt_congr (same : s'.limits = s.limits) (l : Location) :
    s'.limitsAt l = s.limitsAt l := by
  rw [limitsAt, same, limitsAt]

@[simp] theorem limitsAt_put (s : Storage) (l m : Location) (e : Entry) :
    (s.put l e).limitsAt m = s.limitsAt m := rfl

theorem put_put (s : Storage) (l : Location) (e e' : Entry) :
    (s.put l e).put l e' = s.put l e' := by
  simp [put, List.filter_filter]

theorem keepsDirectories_put {l : Location} (free : s.get? l ≠ some .directory) (e : Entry) :
    s.KeepsDirectories (s.put l e) where
  limits := rfl
  directory m there := by rwa [get?_put_of_ne (by rintro rfl; exact free there)]

theorem KeepsDirectories.enter (keeps : s.KeepsDirectories s') {l : Location}
    (entered : s.enter l = .ok ()) : s'.enter l = .ok () := by
  obtain ⟨there, allowed⟩ := enter_eq_ok.1 entered
  exact enter_eq_ok.2 ⟨keeps.directory l there, limitsAt_congr keeps.limits l ▸ allowed⟩

theorem walk_of_keeps (keeps : s.KeepsDirectories s') {l m : Location} {parts : List Text}
    (walked : s.walk l parts = .ok m) : s'.walk l parts = .ok m := by
  induction parts generalizing l with
  | nil => exact walked
  | cons part parts ih =>
    rw [walk_cons_eq_ok] at walked ⊢
    refine ⟨keeps.enter walked.1, ?_⟩
    have later := walked.2
    split at later
    · rw [if_pos ‹_›]
      exact ih later
    · rw [if_neg ‹_›]
      exact ⟨later.1, ih later.2⟩

theorem locate_of_keeps (keeps : s.KeepsDirectories s') {l : Location}
    (found : s.locate p = .ok l) : s'.locate p = .ok l := by
  rw [locate_eq_ok] at found ⊢
  exact ⟨found.1, walk_of_keeps keeps found.2⟩

/-- Whether nothing has changed but that there are new directories on the way to `p`. -/
structure GrowsTo (p : Path) (s s' : Storage) : Prop where
  limits : s'.limits = s.limits
  place : ∀ l, s'.get? l = s.get? l ∨
    s.get? l = none ∧ s'.get? l = some .directory ∧ ∃ n, s'.locate (p.front n) = .ok l

theorem growsTo_refl (p : Path) (s : Storage) : s.GrowsTo p s :=
  ⟨rfl, fun _ => .inl rfl⟩

theorem GrowsTo.keeps (grows : s.GrowsTo p s') : s.KeepsDirectories s' where
  limits := grows.limits
  directory l there := by
    rcases grows.place l with same | ⟨none, -⟩
    · rw [same, there]
    · rw [there] at none
      cases none

theorem GrowsTo.trans (first : s.GrowsTo p s') (later : s'.GrowsTo p s'') : s.GrowsTo p s'' where
  limits := later.limits.trans first.limits
  place l := by
    rcases later.place l with same | ⟨none, new, n, found⟩
    · rw [same]
      rcases first.place l with same | ⟨none, new, n, found⟩
      · exact .inl same
      · exact .inr ⟨none, new, n, locate_of_keeps later.keeps found⟩
    · rcases first.place l with same | ⟨-, there, -⟩
      · exact .inr ⟨same ▸ none, new, n, found⟩
      · rw [there] at none
        cases none

/-- Directories on the way to a place are on the way to all that lies beyond it. -/
theorem GrowsTo.of_front {n : Nat} (grows : s.GrowsTo (p.front n) s') : s.GrowsTo p s' where
  limits := grows.limits
  place l := by
    rcases grows.place l with same | ⟨none, new, m, found⟩
    · exact .inl same
    · refine .inr ⟨none, new, min m n, ?_⟩
      rwa [Path.front, Path.front, List.take_take] at found

theorem GrowsTo.file_iff (grows : s.GrowsTo p s') (l : Location) (content : Bytes) :
    s'.get? l = some (.file content) ↔ s.get? l = some (.file content) := by
  rcases grows.place l with same | ⟨none, new, -⟩
  · rw [same]
  · simp [none, new]

theorem makeDirectory_eq_ok (made : s.makeDirectory p = .ok s') :
    ∃ l, s.locate p = .ok l ∧ s.get? l = none ∧ s' = s.put l .directory := by
  obtain ⟨l, found, made⟩ := bind_eq_ok.1 made
  by_cases up : p.parts.getLast? = some Path.parentName
  · rw [if_pos up] at made
    cases made
  · rw [if_neg up] at made
    cases none : s.get? l with
    | some e =>
      rw [none] at made
      cases made
    | none =>
      rw [none] at made
      obtain ⟨_, -, made⟩ := bind_eq_ok.1 made
      exact ⟨l, found, none, (Except.ok.inj made).symm⟩

/-- No place but the root is taken without having been put in. -/
theorem ne_nil_of_get?_eq_none {l : Location} (none : s.get? l = none) : l ≠ [] := by
  rintro rfl
  cases none

theorem growsTo_makeDirectory (made : s.makeDirectory p = .ok s') : s.GrowsTo p s' := by
  obtain ⟨l, found, none, rfl⟩ := makeDirectory_eq_ok made
  refine ⟨rfl, fun m => ?_⟩
  by_cases same : m = l
  · subst same
    refine .inr ⟨none, get?_put_self (ne_nil_of_get?_eq_none none) s _, p.parts.length, ?_⟩
    rw [Path.front, List.take_length]
    exact locate_of_keeps (keepsDirectories_put (by simp [none]) _) found
  · exact .inl (get?_put_of_ne same s _)

end Storage

namespace Action

open Storage

variable {α β : Type}

/-! ## Runs of actions -/

theorem run_bind (action : Action α) (f : α → Action β) (s : Storage) :
    (action >>= f).run.run s =
      match action.run.run s with
      | (.ok a, s') => (f a).run.run s'
      | (.error fault, s') => (.error fault, s') := by
  simp only [bind, ExceptT.bind, ExceptT.mk, ExceptT.run, StateT.bind, StateT.run]
  rcases action s with ⟨_ | _, s'⟩ <;> rfl

theorem run_get_bind (f : Storage → Action β) (s : Storage) :
    ((get : Action Storage) >>= f).run.run s = (f s).run.run s := rfl

theorem bind_eq_error {action : Action α} {f : α → Action β} {s s' : Storage} {fault : Fault}
    (failed : (action >>= f).run.run s = (.error fault, s')) :
    action.run.run s = (.error fault, s') ∨
      ∃ a m, action.run.run s = (.ok a, m) ∧ (f a).run.run m = (.error fault, s') := by
  rw [run_bind] at failed
  rcases ran : action.run.run s with ⟨fault' | a, m⟩
  · rw [ran, Prod.mk.injEq, Except.error.injEq] at failed
    exact .inl (by rw [failed.1, failed.2])
  · rw [ran] at failed
    exact .inr ⟨a, m, rfl, failed⟩

theorem run_wrapErrors (wrap : StorageError → Fault) (action : Action α) (s : Storage) :
    (wrapErrors wrap action).run.run s =
      match action.run.run s with
      | (.error (.storage e), s') => (.error (wrap e), s')
      | ran => ran := by
  simp only [wrapErrors, tryCatch, tryCatchThe, MonadExceptOf.tryCatch, ExceptT.tryCatch,
    ExceptT.mk, ExceptT.run, StateT.run, bind, StateT.bind]
  rcases action s with ⟨fault | _, s'⟩
  · cases fault <;> rfl
  · rfl

theorem wrapErrors_eq_error {wrap : StorageError → Fault} {action : Action α} {s s' : Storage}
    {fault : Fault} (failed : (wrapErrors wrap action).run.run s = (.error fault, s')) :
    ∃ cause, action.run.run s = (.error cause, s') ∧
      (cause = fault ∨ ∃ e, cause = .storage e ∧ wrap e = fault) := by
  rw [run_wrapErrors] at failed
  split at failed
  · rename_i e m ran
    obtain ⟨same, rfl⟩ := Prod.mk.inj failed
    exact ⟨_, ran, .inr ⟨e, rfl, Except.error.inj same⟩⟩
  · exact ⟨fault, failed, .inl rfl⟩

/-- Whether the storage after the action, however it ends, stands in the relation to the one
before. -/
def Keeps (relates : Storage → Storage → Prop) (action : Action α) : Prop :=
  ∀ s, relates s (action.run.run s).2

section

variable {relates : Storage → Storage → Prop}

theorem Keeps.bind (trans : ∀ {s s' s''}, relates s s' → relates s' s'' → relates s s'')
    {action : Action α} {f : α → Action β} (first : action.Keeps relates)
    (later : ∀ a, (f a).Keeps relates) : (action >>= f).Keeps relates := by
  intro s
  have here := first s
  rw [run_bind]
  rcases ran : action.run.run s with ⟨_ | a, s'⟩
  · rw [ran] at here
    exact here
  · rw [ran] at here
    exact trans here (later a s')

end

/-- Whether the action leaves the storage as it is. -/
abbrev IsReading (action : Action α) : Prop :=
  action.Keeps fun s s' => s' = s

theorem IsReading.bind {action : Action α} {f : α → Action β} (first : action.IsReading)
    (later : ∀ a, (f a).IsReading) : (action >>= f).IsReading :=
  Keeps.bind (fun here there => there.trans here) first later

theorem isReading_pure (a : α) : (pure a : Action α).IsReading :=
  fun _ => rfl

theorem isReading_throw (fault : Fault) : (throw fault : Action α).IsReading :=
  fun _ => rfl

theorem IsReading.keeps {action : Action α} (reading : action.IsReading)
    {relates : Storage → Storage → Prop} (refl : ∀ s, relates s s) : action.Keeps relates := by
  intro s
  rw [reading s]
  exact refl s

theorem run_ask (question : View → Except Fault α) (s : Storage) :
    (ask question).run.run s = (question s.view, s) := by
  rw [ask, run_get_bind]
  cases question s.view <;> rfl

theorem isReading_ask (question : View → Except Fault α) : (ask question).IsReading := by
  intro s
  rw [run_ask]

theorem isReading_checkPath (p : Path) : (checkPath p).IsReading := by
  rw [checkPath]
  split
  · exact isReading_throw _
  · exact isReading_pure ()

/-! ## Actions that write -/

section

variable {p : Path} {s s' : Storage} {fault : Fault}

theorem growsTo_makeDirectoryOr {orElse : Action Unit} (keeps : orElse.Keeps (GrowsTo p)) :
    (makeDirectoryOr p orElse).Keeps (GrowsTo p) := by
  have refl := growsTo_refl p
  refine Keeps.bind (@GrowsTo.trans p) ((isReading_checkPath p).keeps refl) fun _ s => ?_
  rw [run_get_bind]
  split
  · rename_i made
    exact growsTo_makeDirectory made
  · exact keeps s
  · refine Keeps.bind (@GrowsTo.trans p) ((isReading_ask _).keeps refl) (fun there => ?_) s
    split
    · exact (isReading_pure ()).keeps refl
    · exact (isReading_throw _).keeps refl

theorem growsTo_makeDirectories (p : Path) : (makeDirectories p).Keeps (GrowsTo p) := by
  fun_induction makeDirectories p with
  | case1 p missing root =>
    exact growsTo_makeDirectoryOr ((isReading_throw _).keeps (growsTo_refl p))
  | case2 p missing more ih =>
    have front : p.parent = p.front (p.parts.length - 1) := by
      rw [Path.parent, Path.front, List.dropLast_eq_take]
    refine growsTo_makeDirectoryOr (Keeps.bind (@GrowsTo.trans p) (fun s => ?_) fun _ =>
      growsTo_makeDirectoryOr ((isReading_throw _).keeps (growsTo_refl p)))
    have grows := ih s
    rw [front] at grows
    rw [front]
    exact grows.of_front

/-- How the writing of a text ends, and what it leaves. The file is lost when something goes wrong
after it was opened. -/
inductive WriteEnds (p : Path) (text : Text) (s : Storage) : Except Fault Unit × Storage → Prop
  | refused (fault : Fault) : WriteEnds p text s (.error fault, s)
  | unencodable {e : Text.Utf8.EncodeError} (found : s.writable p = .ok p.place)
      (failed : Text.Utf8.encode text = .error e) :
      WriteEnds p text s (.error (.unencodable e), s.put p.place (.file []))
  | cut {content : Bytes} {size : Nat} {denial : Denial} (found : s.writable p = .ok p.place)
      (encoded : Text.Utf8.encode text = .ok content)
      (room : (s.limitsAt p.place).room = some (size, denial)) (long : size ≤ content.length) :
      WriteEnds p text s (.error (.storage ⟨.denied denial, p, .filling⟩),
        s.put p.place (.file (content.take size)))
  | written {content : Bytes} (found : s.writable p = .ok p.place) (noNull : p.hasNull = false)
      (encoded : Text.Utf8.encode text = .ok content) :
      WriteEnds p text s (.ok (), s.put p.place (.file content))

theorem openFile_cases (p : Path) (s : Storage) :
    (∃ fault, (openFile p).run.run s = (.error fault, s)) ∨
      p.hasNull = false ∧ s.writable p = .ok p.place ∧
        (openFile p).run.run s = (.ok p.place, s.put p.place (.file [])) := by
  rw [openFile, run_bind, checkPath]
  cases null : p.hasNull with
  | true => exact .inl ⟨_, rfl⟩
  | false =>
    simp only [Bool.false_eq_true, if_false]
    rw [show (pure () : Action Unit).run.run s = (.ok (), s) from rfl]
    simp only [run_get_bind]
    cases found : s.writable p with
    | error cause => exact .inl ⟨_, rfl⟩
    | ok l =>
      obtain rfl := locate_eq_place (writable_eq_ok.1 found).1
      exact .inr ⟨trivial, rfl, rfl⟩

theorem writeEnds_write (p : Path) (text : Text) (s : Storage) :
    WriteEnds p text s ((write p text).run.run s) := by
  rw [write, run_bind]
  rcases openFile_cases p s with ⟨fault, ran⟩ | ⟨noNull, found, ran⟩
  · rw [ran]
    exact .refused fault
  · rw [ran]
    simp only
    cases encoded : Text.Utf8.encode text with
    | error e => exact .unencodable found encoded
    | ok content =>
      have puts (bytes : Bytes) : (modify (·.put p.place (.file bytes)) : Action Unit).run.run
          (s.put p.place (.file [])) = (.ok (), s.put p.place (.file bytes)) :=
        congrArg (fun m => (Except.ok (), m)) (put_put s p.place _ _)
      simp only [fill, run_get_bind, limitsAt_put]
      split
      · rw [puts]
        exact .written found noNull encoded
      · rename_i size denial room
        split
        · rw [puts]
          exact .written found noNull encoded
        · rename_i long
          rw [run_bind, puts]
          exact .cut found encoded room (Nat.le_of_not_lt long)

end

/-! ## Merges that fail -/

section

variable {s s' : Storage} {fault : Fault} {configured : Text} {directory target : Path}
  {asked : Option Text}

def deliver (target : Path) (merged : Merged) : Action Merged := do
  wrapErrors (.cannotWrite target) do
    makeDirectories target.parent
    write target merged.content
  return merged

theorem run_mergeDirectory (configured : Text) (directory target : Path) (asked : Option Text)
    (s : Storage) : (mergeDirectory configured directory target asked).run.run s =
      match s.view.survey configured directory asked with
      | .error fault => (.error fault, s)
      | .ok merged => (deliver target merged).run.run s := by
  rw [mergeDirectory, run_bind, run_ask]
  cases s.view.survey configured directory asked <;> rfl

/-- Whether the bytes are what is left of a text that was not written to its end. Of one that has no
UTF-8 nothing is. -/
def IsFrontOf (front : Bytes) (text : Text) : Prop :=
  front = [] ∨ ∃ content, Text.Utf8.encode text = .ok content ∧ front <+: content

/-- What was merged is not delivered because of something before the target is opened, or the target
is left with a front of it. -/
theorem deliver_eq_error {merged : Merged}
    (failed : (deliver target merged).run.run s = (.error fault, s')) :
    ∃ grown, s.GrowsTo target.parent grown ∧ (s' = grown ∨ fault.isLate = true ∧
      ∃ front, IsFrontOf front merged.content ∧ s' = grown.put target.place (.file front)) := by
  have made := growsTo_makeDirectories target.parent s
  rw [deliver] at failed
  rcases Action.bind_eq_error failed with failed | ⟨_, _, -, never⟩
  swap
  · cases never
  obtain ⟨cause, failed, named⟩ := wrapErrors_eq_error failed
  have stage : fault.isLate = cause.isLate := by
    obtain rfl | ⟨e, rfl, rfl⟩ := named <;> rfl
  rcases Action.bind_eq_error failed with failed | ⟨_, grown, ran, failed⟩
  · rw [failed] at made
    exact ⟨s', made, .inl rfl⟩
  · rw [ran] at made
    refine ⟨grown, made, ?_⟩
    have ends := writeEnds_write target merged.content grown
    rw [failed] at ends
    cases ends with
    | refused => exact .inl rfl
    | unencodable => exact .inr ⟨stage, [], .inl rfl, rfl⟩
    | cut found encoded room long =>
      exact .inr ⟨stage, _, .inr ⟨_, encoded, List.take_prefix _ _⟩, rfl⟩

/-- A merge fails before its target is opened, or it leaves the target with a front of what was
merged. -/
theorem mergeDirectory_ends
    (failed : (mergeDirectory configured directory target asked).run.run s = (.error fault, s')) :
    ∃ grown, s.GrowsTo target.parent grown ∧ (s' = grown ∨
      fault.isLate = true ∧ ∃ merged front, s.view.survey configured directory asked = .ok merged ∧
        IsFrontOf front merged.content ∧ s' = grown.put target.place (.file front)) := by
  rw [run_mergeDirectory] at failed
  split at failed
  · exact ⟨s, growsTo_refl _ s, .inl (Prod.mk.inj failed).2.symm⟩
  · rename_i merged surveyed
    obtain ⟨grown, grows, same | ⟨late, front, isFront, same⟩⟩ := deliver_eq_error failed
    · exact ⟨grown, grows, .inl same⟩
    · exact ⟨grown, grows, .inr ⟨late, merged, front, surveyed, isFront, same⟩⟩

/-- A merge that fails leaves every file as it was and makes none, but may make directories on the
way to the target. When it fails after the target was opened, this is so of all files but that one,
which is left with a front of what was merged. -/
theorem mergeDirectory_error
    (failed : (mergeDirectory configured directory target asked).run.run s = (.error fault, s')) :
    (fault.isLate = false →
      (∀ l content, s'.get? l = some (.file content) ↔ s.get? l = some (.file content)) ∧
        s.GrowsTo target.parent s') ∧
    (∀ l content, l ≠ target.place →
      (s'.get? l = some (.file content) ↔ s.get? l = some (.file content))) ∧
    ∃ grown, s.GrowsTo target.parent grown ∧ (s' = grown ∨
      ∃ merged front, s.view.survey configured directory asked = .ok merged ∧
        IsFrontOf front merged.content ∧ s' = grown.put target.place (.file front)) := by
  obtain ⟨grown, grows, ends⟩ := mergeDirectory_ends failed
  obtain rfl | ⟨late, merged, front, surveyed, isFront, rfl⟩ := ends
  · exact ⟨fun _ => ⟨grows.file_iff, grows⟩, fun l content _ => grows.file_iff l content,
      s', grows, .inl rfl⟩
  · refine ⟨fun early => ?_, fun l content other => ?_, grown, grows,
      .inr ⟨merged, front, surveyed, isFront, rfl⟩⟩
    · rw [late] at early
      cases early
    · rw [get?_put_of_ne other, grows.file_iff]

end

/-- A directory with one source and a file to merge into. -/
def submission (source : Text) : Storage :=
  { entries := [(["src"], .directory),
      (["src", "Main.java"], .file (source.flatMap Text.Utf8.encodeCodePoint)),
      (["out.java"], .file [1])] }

theorem mergeDirectory_error_noEntryPoint :
    ∃ fault s',
      (mergeDirectory "last" (Path.ofText "src") (Path.ofText "lib/out.java") none).run.run
        (submission "class Main {}") = (.error fault, s') ∧ fault.isLate = false ∧
      (∀ l content, s'.get? l = some (.file content) ↔
        (submission "class Main {}").get? l = some (.file content)) ∧
      (submission "class Main {}").GrowsTo (Path.ofText "lib/out.java").parent s' := by
  have failed : ((mergeDirectory "last" (Path.ofText "src") (Path.ofText "lib/out.java")
      none).run.run (submission "class Main {}")).1 = .error (.merge .noEntryPoint) := by
    decide +kernel
  obtain ⟨kept, grows⟩ := (mergeDirectory_error (Prod.ext failed rfl)).1 rfl
  exact ⟨_, _, Prod.ext failed rfl, rfl, kept, grows⟩

/-- A literal in an import has the text of a lone surrogate. -/
def surrogateImport : Text :=
  "import \"\\uD800\"; public class Main { public static void main(String[] a) {} }"

def plainMain : Text :=
  "public class Main { public static void main(String[] a) {} }"

/-- The submission where the system takes no more than two bytes into the file. -/
def crowded : Storage :=
  { submission plainMain with limits := [(["out.java"], { room := some (2, .noSpace) })] }

/-- Text that cannot be encoded costs the file that it was to be written into, and so does a system
that does not take all of it. -/
theorem mergeDirectory_loses :
    (∃ e s', (mergeDirectory "last" (Path.ofText "src") (Path.ofText "out.java") none).run.run
        (submission surrogateImport) = (.error (.unencodable e), s') ∧
      (submission surrogateImport).get? ["out.java"] = some (.file [1]) ∧
      s'.get? ["out.java"] = some (.file [])) ∧
    ∃ path e s', (mergeDirectory "last" (Path.ofText "src") (Path.ofText "out.java") none).run.run
        crowded = (.error (.cannotWrite path e), s') ∧
      crowded.get? ["out.java"] = some (.file [1]) ∧
      s'.get? ["out.java"]
        = some (.file (plainMain.flatMap Text.Utf8.encodeCodePoint |>.take 2)) := by
  have unable : ((mergeDirectory "last" (Path.ofText "src") (Path.ofText "out.java")
      none).run.run (submission surrogateImport)).1
        = .error (.unencodable ⟨⟨0xD800, by decide⟩, 8, 9⟩) := by
    rw [surrogateImport]
    repeat rw [Text.ofString_ofList]
    decide +kernel
  have full : ((mergeDirectory "last" (Path.ofText "src") (Path.ofText "out.java")
      none).run.run crowded).1 = .error (.cannotWrite (Path.ofText "out.java")
        ⟨.denied .noSpace, Path.ofText "out.java", .filling⟩) := by
    rw [crowded, plainMain]
    repeat rw [Text.ofString_ofList]
    decide +kernel
  refine ⟨⟨_, _, Prod.ext unable rfl, rfl, ?_⟩, _, _, _, Prod.ext full rfl, rfl, ?_⟩
  · rw [surrogateImport]
    repeat rw [Text.ofString_ofList]
    decide +kernel
  · rw [crowded, plainMain]
    repeat rw [Text.ofString_ofList]
    decide +kernel

end Action

end JavaUnits
