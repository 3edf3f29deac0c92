import JavaUnits.Proofs.Refusals
import JavaUnits.Proofs.Sources

/-!
What a merge ends with. Its failures come in a fixed order: the policy is looked at before the
files, the names of all files are collected before any of them is parsed, and the choice comes last.
Each outcome is told by the policy's name and by what the sources are read as, one by one.
-/

namespace JavaUnits

open Text CompilationUnit

variable {ε α : Type}

/-! ## What the sources are read as -/

/-- The first public type of a source that declares a main method. -/
def Text.entryPoint? (s : Text) : Option Text :=
  s.entryPoints.head?

namespace Files

/-- Whether the text of each file can be read. -/
def AllRead (read : Text → Except ε α) (files : Files) : Prop :=
  ∀ file ∈ files, ∃ a, read file.2 = .ok a

theorem FailsFirst.not_allRead {read : Text → Except ε α} {files : Files} {e : ε}
    (fails : files.FailsFirst read e) : ¬ files.AllRead read := by
  obtain ⟨front, file, back, rfl, -, failed⟩ := fails
  intro all
  obtain ⟨a, ok⟩ := all file (by simp)
  rw [failed] at ok
  cases ok

/-- The entry points of the files, one each, with the paths of their files. -/
def entryPoints (files : Files) : List (Text × Text) :=
  files.filterMap fun file => file.2.entryPoint?.map fun name => (name, file.1)

/-- Whether a type of one of the files is public and declares a main method. -/
def HasEntryPoint (files : Files) : Prop :=
  ∃ file ∈ files, ∃ u, parse file.2 = .ok u ∧ ∃ t ∈ u.types,
    t.isPublic = true ∧ t.header.declaresMain = true

theorem isSome_entryPoint? {s : Text} : s.entryPoint?.isSome = true ↔ ∃ u, parse s = .ok u ∧
    ∃ t ∈ u.types, t.isPublic = true ∧ t.header.declaresMain = true := by
  rw [Text.entryPoint?, Text.entryPoints]
  cases parsed : parse s with
  | error e => simp [Except.toOption]
  | ok u =>
    simp [Except.toOption, CompilationUnit.entryPoints, TypeDecl.isEntryPoint, and_comm]

theorem entryPoints_eq_nil {files : Files} : files.entryPoints = [] ↔ ¬ files.HasEntryPoint := by
  rw [entryPoints, List.filterMap_eq_nil_iff, HasEntryPoint, not_exists]
  refine forall_congr' fun file => ?_
  rw [Option.map_eq_none_iff, ← isSome_entryPoint?, not_and, Bool.not_eq_true,
    Option.isSome_eq_false_iff, Option.isNone_iff_eq_none]

theorem paths_entryPoints (files : Files) :
    files.entryPoints.map Prod.snd
      = names (files.filter fun file => file.2.entryPoint?.isSome) := by
  induction files with
  | nil => rfl
  | cons file files ih =>
    rw [entryPoints] at ih ⊢
    rw [List.filterMap_cons, List.filter_cons]
    cases file.2.entryPoint? with
    | none => exact ih
    | some name => exact congrArg (_ :: ·) ih

end Files

namespace Merge

variable {sources : Files} {defined : List Text} {es : List Extract} {asked : Option Text}
  {configured : Text} {p : Policy}

/-! ## One step after the other -/

theorem exists_definedNames : (∃ defined, definedNames sources = .ok defined) ↔
    sources.AllRead declaredNames := by
  constructor
  · rintro ⟨defined, found⟩ file mem
    obtain ⟨names, declared, -⟩ := definedNames_eq_ok found
    obtain ⟨ns, -, ok⟩ := exists_right_of_mem declared mem
    exact ⟨ns, ok⟩
  · intro all
    obtain ⟨names, declared⟩ := @exists_forall₂ (List Text) (Text × Text)
      (fun ns file => declaredNames file.2 = .ok ns) sources all
    exact ⟨_, definedNames_of_declared declared.flip⟩

theorem exists_extracted_iff (defined : List Text) : (∃ es, Extracted sources defined es) ↔
    sources.AllRead parse := by
  constructor
  · rintro ⟨es, extracted⟩ file mem
    obtain ⟨e, -, u, parsed, -⟩ := exists_right_of_mem extracted mem
    exact ⟨u, parsed⟩
  · intro all
    obtain ⟨es, extracted⟩ := @exists_forall₂ Extract (Text × Text)
      (fun e file => ∃ u, parse file.2 = .ok u ∧ e = Extract.ofUnit file.1 defined u) sources
      fun file mem => by
        obtain ⟨u, parsed⟩ := all file mem
        exact ⟨_, u, parsed, rfl⟩
    exact ⟨es, extracted.flip⟩

theorem extracts_eq_ok :
    sources.mapM (fun (path, source) => Extract.ofSource defined path source) = .ok es ↔
      Extracted sources defined es := by
  have taken (file : Text × Text) (e : Extract) :
      Extract.ofSource defined file.1 file.2 = .ok e ↔
        ∃ u, parse file.2 = .ok u ∧ e = .ofUnit file.1 defined u := by
    simp only [Extract.ofSource, bind_eq_ok, pure_eq_ok, Except.ok.injEq, eq_comm (a := e)]
  rw [mapM_eq_ok, Extracted]
  simp only [taken]

theorem Extracted.paths (extracted : Extracted sources defined es) :
    es.map Extract.path = sources.names := by
  induction extracted with
  | nil => rfl
  | cons here _ ih =>
    obtain ⟨u, -, rfl⟩ := here
    exact congrArg (_ :: ·) ih

theorem Extracted.candidates (extracted : Extracted sources defined es) :
    es.filterMap Extract.candidate? = sources.entryPoints := by
  have names := extracted.mainClassName_eq
  induction extracted with
  | nil => rfl
  | @cons file e sources es here _ ih =>
    obtain ⟨u, -, rfl⟩ := here
    obtain ⟨same, later⟩ := List.forall₂_cons.1 names
    rw [Files.entryPoints] at ih ⊢
    rw [List.filterMap_cons, List.filterMap_cons, ih later, Extract.candidate?, ← same]
    rfl

/-- What goes wrong with the files is told before anything is chosen. -/
theorem extracting_eq_error {e : UnitError} : (do
      let defined ← definedNames sources
      sources.mapM fun (path, source) => Extract.ofSource defined path source) = .error e ↔
    (∃ lexical, sources.FailsFirst declaredNames lexical ∧ e = .lexical lexical) ∨
      sources.AllRead declaredNames ∧ sources.FailsFirst parse e := by
  rw [bind_eq_error, definedNames_eq_error, ← exists_definedNames]
  simp only [extracts_eq_error, exists_and_right]

/-- Among files that are read, the choice fails by their entry points. -/
theorem choosing_eq_error {e : MergeError} : (∃ es, (do
      let defined ← definedNames sources
      sources.mapM fun (path, source) => Extract.ofSource defined path source) = .ok es ∧
      Choice.make p es = .error e) ↔
    sources.AllRead declaredNames ∧ sources.AllRead parse ∧
      (p = .fail ∧ 1 < sources.entryPoints.length ∧ e = .multipleEntryPoints sources.entryPoints ∨
        ¬ sources.HasEntryPoint ∧ e = .noEntryPoint) := by
  simp only [bind_eq_ok, extracts_eq_ok, Choice.make_eq_error]
  constructor
  · rintro ⟨es, ⟨defined, found, extracted⟩, failed⟩
    rw [extracted.candidates, Files.entryPoints_eq_nil] at failed
    exact ⟨exists_definedNames.1 ⟨_, found⟩, (exists_extracted_iff defined).1 ⟨es, extracted⟩,
      failed⟩
  · rintro ⟨named, parsed, failed⟩
    obtain ⟨defined, found⟩ := exists_definedNames.2 named
    obtain ⟨es, extracted⟩ := (exists_extracted_iff defined).2 parsed
    rw [← Files.entryPoints_eq_nil, ← extracted.candidates] at failed
    exact ⟨es, ⟨defined, found, extracted⟩, failed⟩

end Merge

/-! ## All steps together -/

section

variable {sources : Files} {asked : Option Text} {configured : Text}

theorem merge_eq_error_of_policy {p : Policy} {e : MergeError}
    (named : p.name = Policy.effective asked configured) :
    merge sources asked configured = .error e ↔
      sources = [] ∧ e = .noSources ∨
      (∃ e', e = .source e' ∧ ((∃ lexical, sources.FailsFirst declaredNames lexical ∧
          e' = .lexical lexical) ∨
        sources.AllRead declaredNames ∧ sources.FailsFirst parse e')) ∨
      sources ≠ [] ∧ sources.AllRead declaredNames ∧ sources.AllRead parse ∧
        (p = .fail ∧ 1 < sources.entryPoints.length ∧
            e = .multipleEntryPoints sources.entryPoints ∨
          ¬ sources.HasEntryPoint ∧ e = .noEntryPoint) := by
  rw [merge, Merge.policy_eq_ok.2 named, ok_bind]
  dsimp only
  split
  · rename_i none
    obtain rfl := List.isEmpty_iff.1 none
    simp [throw, throwThe, MonadExceptOf.throw, eq_comm, Files.FailsFirst]
  rename_i more
  rw [List.isEmpty_iff] at more
  rw [bind_eq_error, mapError_eq_error]
  simp only [Merge.extracting_eq_error]
  simp only [mapError_eq_ok, bind_eq_error, pure_eq_ok, reduceCtorEq, and_false, exists_false,
    or_false, Merge.choosing_eq_error, more, false_and, false_or, ne_eq, not_false_eq_true,
    true_and]
  simp only [and_comm, eq_comm]

theorem merge_of_unknown (unknown : ∀ p : Policy, p.name ≠ Policy.effective asked configured) :
    merge sources asked configured = .error (.invalidPolicy (Policy.effective asked configured)) :=
  bind_eq_error.2 (.inl (Merge.policy_eq_error.2 ⟨unknown, rfl⟩))

theorem filterMap_mainClassName_eq_nil {es : List Extract}
    (none : ∀ e ∈ es, e.isCandidate = false) : es.filterMap Extract.mainClassName = [] := by
  refine List.filterMap_eq_nil_iff.2 fun e mem => ?_
  have other := none e mem
  rwa [Extract.isCandidate, Option.isSome_eq_false_iff, Option.isNone_iff_eq_none] at other

/-- A merge that succeeds has read all files, and the entry points of the files are the main class
and those that are demoted. -/
theorem entryPoints_of_merge {r : Merged} (merged : merge sources asked configured = .ok r) :
    ∃ p : Policy, p.name = Policy.effective asked configured ∧ sources.AllRead declaredNames ∧
      sources.AllRead parse ∧ r.sourceFiles = sources.names ∧
      ∃ before after, sources.entryPoints.map Prod.fst = before ++ r.mainClassName :: after ∧
        r.demotedEntryPoints = before ++ after ∧
        (if p = .first then before = [] else after = []) ∧
        (p = .fail → before = []) := by
  obtain ⟨p, defined, es, c, policy, found, extracted, suits, rfl⟩ := merge_eq_ok merged
  refine ⟨p, Merge.policy_eq_ok.1 policy, Merge.exists_definedNames.1 ⟨_, found⟩,
    (Merge.exists_extracted_iff defined).1 ⟨es, extracted⟩, extracted.paths,
    c.before.filterMap Extract.mainClassName, c.after.filterMap Extract.mainClassName,
    ?_, ?_, ?_, ?_⟩
  · have names : sources.entryPoints.map Prod.fst = es.filterMap Extract.mainClassName := by
      rw [← extracted.candidates, List.map_filterMap]
      congr 1
      funext e
      rw [Extract.candidate?, Option.map_map]
      exact congrFun Option.map_id _
    obtain ⟨main, isMain⟩ := Option.isSome_iff_exists.1 suits.candidate
    rw [names, ← suits.all, Merge.Choice.all, List.filterMap_append, List.filterMap_cons, isMain]
    simp [Merge.ofChoice, isMain]
  · exact List.filterMap_append
  · split
    · rename_i isFirst
      exact filterMap_mainClassName_eq_nil (suits.first isFirst)
    · rename_i other
      exact filterMap_mainClassName_eq_nil (suits.last other)
  · intro isFail
    exact filterMap_mainClassName_eq_nil fun e mem =>
      suits.alone isFail e (List.mem_append_left _ mem)

/-- A merge finds several entry points only when it is to fail then. -/
theorem merge_eq_multipleEntryPoints {p : Policy} {found : List (Text × Text)}
    (named : p.name = Policy.effective asked configured) :
    merge sources asked configured = .error (.multipleEntryPoints found) ↔
      p = .fail ∧ (sources.AllRead declaredNames ∧ sources.AllRead parse) ∧
        1 < sources.entryPoints.length ∧ found = sources.entryPoints := by
  rw [merge_eq_error_of_policy named]
  simp only [reduceCtorEq, and_false, false_and, exists_false, false_or, or_false,
    MergeError.multipleEntryPoints.injEq]
  constructor
  · rintro ⟨-, collected, parsed, isFail, several, same⟩
    exact ⟨isFail, ⟨collected, parsed⟩, several, same⟩
  · rintro ⟨isFail, ⟨collected, parsed⟩, several, same⟩
    refine ⟨?_, collected, parsed, isFail, several, same⟩
    rintro rfl
    simp [Files.entryPoints] at several

theorem exists_merge {p : Policy} (named : p.name = Policy.effective asked configured) :
    (∃ r, merge sources asked configured = .ok r) ↔
      (sources.AllRead declaredNames ∧ sources.AllRead parse) ∧ sources.HasEntryPoint ∧
        (p = .fail → sources.entryPoints.length ≤ 1) := by
  constructor
  · rintro ⟨r, merged⟩
    obtain ⟨q, named', collected, parsed, -, before, after, names, -, side, alone⟩ :=
      entryPoints_of_merge merged
    obtain rfl : p = q := Policy.eq_of_name (named.trans named'.symm)
    refine ⟨⟨collected, parsed⟩, ?_, fun isFail => ?_⟩
    · rw [← not_not (a := sources.HasEntryPoint), ← Files.entryPoints_eq_nil]
      intro none
      simp [none] at names
    · rw [if_neg (by simp [isFail])] at side
      have length := congrArg List.length names
      rw [alone isFail, side] at length
      simpa using Nat.le_of_eq length
  · rintro ⟨⟨collected, parsed⟩, some, alone⟩
    -- None of the failures is left.
    cases outcome : merge sources asked configured with
    | ok r => exact ⟨r, rfl⟩
    | error e =>
      exfalso
      rcases (merge_eq_error_of_policy named).1 outcome with
        ⟨rfl, -⟩ | ⟨e', -, ⟨lexical, failed, -⟩ | ⟨-, failed⟩⟩ |
          ⟨-, -, -, ⟨isFail, several, -⟩ | ⟨none, -⟩⟩
      · obtain ⟨file, mem, -⟩ := some
        cases mem
      · exact failed.not_allRead collected
      · exact failed.not_allRead parsed
      · have := alone isFail
        omega
      · exact none some

end

/-- What a merge ends with, in the order in which its failures come: an unknown policy, no files,
the first file whose names cannot be collected, the first that cannot be parsed, no entry point,
several of them under the policy to fail. Otherwise it succeeds, and the entry points of the files
are the main class and those that are demoted. -/
theorem merge_decides (sources : Files) (asked : Option Text) (configured : Text) :
    let result := merge sources asked configured
    let name := Policy.effective asked configured
    let isKnown := ∃ p : Policy, p.name = name
    let isReadable := sources.AllRead declaredNames ∧ sources.AllRead parse
    (∀ n, result = .error (.invalidPolicy n) ↔ ¬ isKnown ∧ n = name) ∧
    (result = .error .noSources ↔ isKnown ∧ sources = []) ∧
    (∀ e, result = .error (.source e) ↔ isKnown ∧
      ((∃ lexical, sources.FailsFirst declaredNames lexical ∧ e = .lexical lexical) ∨
        sources.AllRead declaredNames ∧ sources.FailsFirst parse e)) ∧
    (result = .error .noEntryPoint ↔
      isKnown ∧ sources ≠ [] ∧ isReadable ∧ ¬ sources.HasEntryPoint) ∧
    ((∃ found, result = .error (.multipleEntryPoints found)) ↔
      name = Policy.fail.name ∧ isReadable ∧ 1 < sources.entryPoints.length) ∧
    (∀ found, result = .error (.multipleEntryPoints found) →
      (MergeError.multipleEntryPoints found).refusal?.bind Refusal.candidates
        = some (Files.names (sources.filter fun file => file.2.entryPoint?.isSome))) ∧
    ((∃ r, result = .ok r) ↔ isKnown ∧ isReadable ∧ sources.HasEntryPoint ∧
      (name = Policy.fail.name → sources.entryPoints.length ≤ 1)) ∧
    ∀ r, result = .ok r → r.sourceFiles = sources.names ∧
      ∃ before after, sources.entryPoints.map Prod.fst = before ++ r.mainClassName :: after ∧
        r.demotedEntryPoints = before ++ after ∧
        if name = Policy.first.name then before = [] else after = [] := by
  intro result name isKnown isReadable
  by_cases known : isKnown
  case neg =>
    have unknown : result = .error (.invalidPolicy name) :=
      merge_of_unknown fun p named => known ⟨p, named⟩
    have other : name ≠ Policy.fail.name := fun same => known ⟨.fail, same.symm⟩
    simp [unknown, known, other, eq_comm]
  obtain ⟨p, named⟩ := id known
  have fails (e : MergeError) : result = .error e ↔ _ := merge_eq_error_of_policy named
  have several {found : List (Text × Text)} :
      result = .error (.multipleEntryPoints found) ↔ _ := merge_eq_multipleEntryPoints named
  have policies (q : Policy) : name = q.name ↔ p = q :=
    ⟨fun same => Policy.eq_of_name (named.trans same), fun same => same ▸ named.symm⟩
  refine ⟨fun n => ?_, ?_, fun e => ?_, ?_, ?_, fun found failed => ?_, ?_, fun r merged => ?_⟩
  · simp [fails, known]
  · simp [fails, known]
  · simp [fails, known]
  · simp [fails, known, isReadable, and_assoc]
  · simp only [several, policies, isReadable, exists_and_left, exists_eq, and_true]
  · obtain ⟨-, -, -, rfl⟩ := several.1 failed
    rw [← Files.paths_entryPoints]
    rfl
  · rw [policies]
    simp only [known, true_and]
    exact exists_merge named
  · obtain ⟨q, named', -, -, files, before, after, names, demoted, side, -⟩ :=
      entryPoints_of_merge merged
    obtain rfl : p = q := Policy.eq_of_name (named.trans named'.symm)
    refine ⟨files, before, after, names, demoted, ?_⟩
    simpa only [policies] using side

def applicants : Files :=
  [("A.java", "public class A \x7b\n  public static void main(String[] args) \x7b\x7d\n\x7d\n"),
   ("Util.java", "class Util \x7b\x7d\n"),
   ("B.java", "public class B \x7b\n  public static void main(String[] args) \x7b\x7d\n\x7d\n")]

/-- Two entry points are refused under one policy and told apart under another. -/
theorem merge_decides_applicants :
    (∃ found, merge applicants (some "fail") "last" = .error (.multipleEntryPoints found)) ∧
    ∃ r, merge applicants (some "") "last" = .ok r ∧
      r.sourceFiles = ["A.java", "Util.java", "B.java"] := by
  obtain ⟨ran, several⟩ : (∀ file ∈ applicants, (declaredNames file.2).toOption.isSome ∧
      (parse file.2).toOption.isSome) ∧ 1 < applicants.entryPoints.length := by
    rw [applicants]
    repeat rw [ofString_ofList]
    decide +kernel
  have readable : applicants.AllRead declaredNames ∧ applicants.AllRead parse :=
    ⟨fun file mem => exists_eq_ok (ran file mem).1, fun file mem => exists_eq_ok (ran file mem).2⟩
  have some : applicants.HasEntryPoint := by
    rw [← not_not (a := applicants.HasEntryPoint), ← Files.entryPoints_eq_nil]
    rintro none
    simp [none] at several
  obtain ⟨-, -, -, -, refused, -⟩ := merge_decides applicants (Option.some "fail") "last"
  obtain ⟨-, -, -, -, -, -, succeeds, tells⟩ := merge_decides applicants (Option.some "") "last"
  obtain ⟨r, merged⟩ := succeeds.2 ⟨⟨.last, rfl⟩, readable, some, by decide⟩
  exact ⟨refused.2 ⟨rfl, readable, several⟩, r, merged, (tells r merged).1⟩

end JavaUnits
