import JavaUnits.Proofs.Encoding
import JavaUnits.Proofs.SplitRuns

/-!
Faults of the storage. A split or merge asks of the storage that its directories can be made and
listed and its files read and written. When the storage serves it so far, it ends as the
transformation of the texts ends.
-/

namespace JavaUnits

/-- Whether it is the storage that fails, or a path that can be on none. -/
def Fault.isOfStorage : Fault → Bool
  | cannotCreate _ _ | cannotWrite _ _ | storage _ | nullInPath => true
  | _ => false

namespace View

variable {α β : Type} {v : View} {p : Path} {answer : Except Fault α}

/-- Whether nothing but the storage makes the answer fail. -/
def FailsByStorage (answer : Except Fault α) : Prop :=
  ∀ ⦃fault⦄, answer = .error fault → fault.isOfStorage = true

theorem failsByStorage_ok (a : α) : FailsByStorage (.ok a) :=
  nofun

theorem FailsByStorage.bind {f : α → Except Fault β} (first : FailsByStorage answer)
    (later : ∀ a, FailsByStorage (f a)) : FailsByStorage (answer >>= f) := by
  intro fault failed
  rcases bind_eq_error.1 failed with failed | ⟨a, -, failed⟩
  · exact first failed
  · exact later a failed

theorem failsByStorage_mapError {answer : Except StorageCause α} :
    FailsByStorage (answer.mapError fun cause => .storage ⟨cause, p, .reaching⟩) := by
  intro fault failed
  obtain ⟨cause, -, rfl⟩ := mapError_eq_error.1 failed
  rfl

theorem failsByStorage_filterM {f : α → Except Fault Bool} (each : ∀ a, FailsByStorage (f a))
    (as : List α) : FailsByStorage (as.filterM f) := by
  have loop (done : List α) : FailsByStorage (as.filterAuxM f done) := by
    induction as generalizing done with
    | nil => exact failsByStorage_ok done
    | cons a as ih =>
      rw [List.filterAuxM]
      exact (each a).bind fun _ => ih _
  exact (loop []).bind fun _ => failsByStorage_ok _

theorem failsByStorage_lookUp (v : View) (p : Path) : FailsByStorage (v.lookUp p) := by
  rw [lookUp]
  split
  · exact failsByStorage_ok none
  · exact failsByStorage_mapError

theorem failsByStorage_isDirectory (v : View) (p : Path) : FailsByStorage (v.isDirectory p) :=
  (failsByStorage_lookUp v p).bind fun _ => failsByStorage_ok _

theorem failsByStorage_isFile (v : View) (p : Path) : FailsByStorage (v.isFile p) := by
  refine (failsByStorage_lookUp v p).bind fun found => ?_
  split
  · exact failsByStorage_ok true
  · exact failsByStorage_ok false

theorem failsByStorage_listSources (v : View) (directory : Path) :
    FailsByStorage (v.listSources directory sourceExtension) := by
  rw [listSources, Glob.filesBelow, Glob.parts_source, ok_bind]
  refine (failsByStorage_isDirectory v directory).bind fun there => ?_
  split
  · refine (failsByStorage_filterM (failsByStorage_isFile v) _).bind fun files => ?_
    split
    · exact failsByStorage_ok _
    · rename_i ended
      intro fault failed
      obtain rfl := Except.error.inj failed
      have only : (Glob.select v directory [.anyDepth, .pattern Glob.sourceSigns]).FailsOnly
          (·.isOfStorage = true) := Glob.failsOnly_select_anyDepth (fun _ _ => rfl) directory
      exact only ended
  · exact failsByStorage_ok []

/-- A file is read unless the storage refuses it, when its content is UTF-8. -/
theorem failsByStorage_readSource
    (decodes : ∀ content, v.content p = .ok content →
      ∃ raw, Text.Utf8.decodeMarked content = .ok raw) :
    FailsByStorage (v.readSource p) := by
  intro fault failed
  rcases bind_eq_error.1 failed with failed | ⟨content, read, failed⟩
  · rw [View.content] at failed
    split at failed
    · rw [← Except.error.inj failed]
      rfl
    · exact failsByStorage_mapError failed
  · obtain ⟨raw, decoded⟩ := decodes content read
    rw [decoded] at failed
    cases failed

theorem failsByStorage_readSources {directory : Path} {paths : List Path}
    (each : ∀ p ∈ paths, FailsByStorage (v.readSource p)) :
    FailsByStorage (v.readSources directory paths) := by
  induction paths with
  | nil => exact failsByStorage_ok []
  | cons p ps ih =>
    rw [List.forall_mem_cons] at each
    exact each.1.bind fun _ => (ih each.2).bind fun _ => failsByStorage_ok _

end View

namespace Action

open Storage

variable {α β : Type} {action : Action α} {f : α → Action β} {s s' m : Storage} {p : Path}

/-- Whether nothing but the storage makes the action fail. -/
def FailsByStorage (action : Action α) : Prop :=
  ∀ ⦃s fault s'⦄, action.run.run s = (.error fault, s') → fault.isOfStorage = true

/-- Whether the storage does not make the action fail. -/
def IsServed (action : Action α) (s : Storage) : Prop :=
  ∀ ⦃fault s'⦄, action.run.run s = (.error fault, s') → fault.isOfStorage = false

/-- What only the storage could make fail succeeds where the storage serves it. -/
theorem FailsByStorage.exists_ok (fails : action.FailsByStorage) (served : action.IsServed s) :
    ∃ a s', action.run.run s = (.ok a, s') := by
  rcases ran : action.run.run s with ⟨fault | a, s'⟩
  · have blamed := fails ran
    rw [served ran] at blamed
    cases blamed
  · exact ⟨a, s', rfl⟩

theorem isServed_of_isSome
    (ok : (action.run.run s).1.toOption.isSome = true) : action.IsServed s := by
  intro fault s' failed
  rw [failed] at ok
  cases ok

theorem IsServed.of_bind (served : (action >>= f).IsServed s) : action.IsServed s := by
  intro fault s' failed
  have goesOn : (action >>= f).run.run s = (.error fault, s') := by rw [run_bind, failed]
  exact served goesOn

theorem IsServed.bind (served : (action >>= f).IsServed s) (fails : action.FailsByStorage) :
    ∃ a m, action.run.run s = (.ok a, m) ∧ (action >>= f).run.run s = (f a).run.run m ∧
      (f a).IsServed m := by
  obtain ⟨a, m, ran⟩ := fails.exists_ok served.of_bind
  have goesOn : (action >>= f).run.run s = (f a).run.run m := by rw [run_bind, ran]
  exact ⟨a, m, ran, goesOn, fun fault s' failed => served (goesOn.trans failed)⟩

theorem failsByStorage_pure (a : α) : (pure a : Action α).FailsByStorage := by
  intro s fault s' failed
  cases (Prod.mk.inj failed).1

theorem failsByStorage_throw {fault : Fault} (blamed : fault.isOfStorage = true) :
    (throw fault : Action α).FailsByStorage := by
  intro s fault' s' failed
  obtain rfl := Except.error.inj (Prod.mk.inj failed).1
  exact blamed

theorem failsByStorage_get : (get : Action Storage).FailsByStorage := by
  intro s fault s' failed
  cases (Prod.mk.inj failed).1

theorem failsByStorage_modify (change : Storage → Storage) :
    (modify change : Action Unit).FailsByStorage := by
  intro s fault s' failed
  cases (Prod.mk.inj failed).1

theorem failsByStorage_ask {question : View → Except Fault α}
    (fails : ∀ v, View.FailsByStorage (question v)) : (ask question).FailsByStorage := by
  intro s fault s' failed
  rw [run_ask] at failed
  exact fails s.view (Prod.mk.inj failed).1

theorem FailsByStorage.bind (first : action.FailsByStorage) (later : ∀ a, (f a).FailsByStorage) :
    (action >>= f).FailsByStorage := by
  intro s fault s' failed
  rcases Action.bind_eq_error failed with failed | ⟨a, m, -, failed⟩
  · exact first failed
  · exact later a failed

theorem FailsByStorage.wrapErrors {wrap : StorageError → Fault} (fails : action.FailsByStorage)
    (wraps : ∀ e, (wrap e).isOfStorage = true) : (wrapErrors wrap action).FailsByStorage := by
  intro s fault s' failed
  obtain ⟨cause, ran, rfl | ⟨e, rfl, rfl⟩⟩ := wrapErrors_eq_error failed
  · exact fails ran
  · exact wraps e

theorem failsByStorage_checkPath (p : Path) : (checkPath p).FailsByStorage := by
  rw [checkPath]
  split
  · exact failsByStorage_throw rfl
  · exact failsByStorage_pure ()

/-! ## Making and writing -/

theorem failsByStorage_makeDirectoryOr {orElse : Action Unit} (fails : orElse.FailsByStorage) :
    (makeDirectoryOr p orElse).FailsByStorage := by
  refine (failsByStorage_checkPath p).bind fun _ => failsByStorage_get.bind fun s => ?_
  split
  · exact failsByStorage_modify _
  · exact fails
  · refine (failsByStorage_ask fun v => v.failsByStorage_isDirectory p).bind fun there => ?_
    split
    · exact failsByStorage_pure ()
    · exact failsByStorage_throw rfl

theorem failsByStorage_makeDirectories (p : Path) : (makeDirectories p).FailsByStorage := by
  induction p using makeDirectories.induct with
  | case1 p root =>
    rw [makeDirectories, if_pos root]
    exact failsByStorage_makeDirectoryOr (failsByStorage_throw rfl)
  | case2 p more ih =>
    rw [makeDirectories, if_neg more]
    exact failsByStorage_makeDirectoryOr (ih.bind fun _ =>
      failsByStorage_makeDirectoryOr (failsByStorage_throw rfl))

theorem failsByStorage_openFile (p : Path) : (openFile p).FailsByStorage := by
  refine (failsByStorage_checkPath p).bind fun _ => failsByStorage_get.bind fun s => ?_
  split
  · exact failsByStorage_throw rfl
  · exact (failsByStorage_modify _).bind fun _ => failsByStorage_pure _

theorem failsByStorage_fill (p : Path) (l : Location) (content : Bytes) :
    (fill p l content).FailsByStorage := by
  refine failsByStorage_get.bind fun s => ?_
  split
  · exact failsByStorage_modify _
  · split
    · exact failsByStorage_modify _
    · exact (failsByStorage_modify _).bind fun _ => failsByStorage_throw rfl

theorem failsByStorage_write {text : Text} (scalar : text.IsScalar) (p : Path) :
    (write p text).FailsByStorage := by
  refine (failsByStorage_openFile p).bind fun l => ?_
  rw [Text.Utf8.encode_of_isScalar scalar]
  exact failsByStorage_fill p l _

theorem failsByStorage_writeAll {files : List (Path × Text)}
    (scalar : ∀ file ∈ files, file.2.IsScalar) : (writeAll files).FailsByStorage := by
  induction files with
  | nil => exact failsByStorage_pure ()
  | cons file files ih =>
    rw [List.forall_mem_cons] at scalar
    exact ((failsByStorage_write scalar.1 file.1).wrapErrors fun _ => rfl).bind fun _ =>
      ih scalar.2

end Action

end JavaUnits
