import JavaUnits.Proofs.SelfImports
import JavaUnits.Proofs.Verdicts
import Mathlib.Data.List.Perm.Basic

/-!
Merges of the same files in another order. What is read of each file does not depend on the others'
places, and the imports are a set. The order tells which of several entry points is chosen, and in
which order the other files are put together.
-/

namespace JavaUnits

open Text CompilationUnit

/-- The text of a source without directives, which may be demoted. -/
def Text.bodyLeft (demoted : Bool) (s : Text) : List Text :=
  ((parse s).toOption.map (CompilationUnit.body demoted)).getD []

/-- The names of the types that a source declares. -/
def Text.typeNames (s : Text) : List Text :=
  ((parse s).toOption.map fun u => u.types.map TypeDecl.name).getD []

/-- Whether the file has a body that is left when it is demoted. -/
def Files.HasBody (file : Text × Text) : Prop :=
  file.2.bodyLeft true ≠ []

instance (file : Text × Text) : Decidable (Files.HasBody file) :=
  inferInstanceAs (Decidable (_ ≠ _))

/-- Whether a merge consists of the chosen file's body behind those of the other files, which are
demoted. -/
structure Merged.IsMadeOf (r : Merged) (chosen : Text × Text) (others : Files) : Prop where
  content : r.content = Merge.assemble r.imports
    ((others.filter Files.HasBody).map fun file => file.2.bodyLeft true) (chosen.2.bodyLeft false)
  mainClassName : chosen.2.entryPoint? = some r.mainClassName
  otherClassNames : r.otherClassNames =
    (others.filter Files.HasBody).flatMap fun file => file.2.typeNames
  demotedEntryPoints : r.demotedEntryPoints = others.filterMap fun file => file.2.entryPoint?

namespace Merge

variable {sources sources' others : Files} {chosen : Text × Text} {defined defined' : List Text}
  {es es' : List Extract} {c : Choice} {p : Policy}

/-! ## What is read of the files -/

theorem Extracted.bodyLeft_eq (extracted : Extracted sources defined es) (demoted : Bool) :
    List.Forall₂ (fun file e => file.2.bodyLeft demoted =
      if demoted then e.demotedBody else e.body) sources es := by
  refine extracted.imp ?_
  rintro file _ ⟨u, parsed, rfl⟩
  rw [Text.bodyLeft, parsed]
  cases demoted <;> rfl

theorem Extracted.typeNames (extracted : Extracted sources defined es) :
    List.Forall₂ (fun file e => file.2.typeNames = e.typeNames) sources es := by
  refine extracted.imp ?_
  rintro file _ ⟨u, parsed, rfl⟩
  rw [Text.typeNames, parsed]
  rfl

theorem Extracted.hasBody (extracted : Extracted sources defined es) :
    Extracted (sources.filter Files.HasBody) defined
      (es.filter fun e => !e.demotedBody.isEmpty) := by
  refine List.rel_filter ?_ extracted
  rintro file _ ⟨u, parsed, rfl⟩
  dsimp only
  rw [decide_eq_true_iff, Files.HasBody, Text.bodyLeft, parsed, Bool.not_eq_true',
    Bool.eq_false_iff, Ne, Ne, List.isEmpty_iff]
  rfl

theorem Extracted.isMadeOf (taken : Extracted [chosen] defined [c.chosen])
    (rest : Extracted others defined c.others) (candidate : c.chosen.isCandidate = true) :
    (ofChoice es c).IsMadeOf chosen others where
  content := by
    have bodies := map_eq_map_of_forall₂ (rest.hasBody.bodyLeft_eq true) fun _ _ _ _ same => same
    have main := (List.forall₂_cons.1 (taken.bodyLeft_eq false)).1
    rw [bodies, main]
    rfl
  mainClassName := by
    obtain ⟨name, isMain⟩ := Option.isSome_iff_exists.1 candidate
    rw [Text.entryPoint?, (List.forall₂_cons.1 taken.mainClassName_eq).1, ofChoice, isMain]
    rfl
  otherClassNames :=
    (congrArg List.flatten
      (map_eq_map_of_forall₂ rest.hasBody.typeNames fun _ _ _ _ same => same)).symm
  demotedEntryPoints := by
    have names := congrArg (List.filterMap id)
      (map_eq_map_of_forall₂ rest.mainClassName_eq fun _ _ _ _ same => same)
    rw [List.filterMap_map, List.filterMap_map] at names
    exact names.symm

/-! ## What the order changes -/

theorem definedNames_of_perm (found : definedNames sources = .ok defined)
    (reordered : sources'.Perm sources) : ∃ defined', definedNames sources' = .ok defined' ∧
      ∀ n, n ∈ defined' ↔ n ∈ defined := by
  obtain ⟨names, declared, rfl⟩ := definedNames_eq_ok found
  obtain ⟨names', declared', perm⟩ := List.perm_comp_forall₂ reordered declared
  exact ⟨_, definedNames_of_declared declared', fun n => perm.flatten.mem_iff⟩

theorem Extracted.congr (extracted : Extracted sources defined es)
    (same : ∀ n, n ∈ defined' ↔ n ∈ defined) : Extracted sources defined' es := by
  refine extracted.imp ?_
  rintro file _ ⟨u, parsed, rfl⟩
  refine ⟨u, parsed, ?_⟩
  rw [Extract.ofUnit, Extract.ofUnit]
  simp only [Import.isSelf_congr same]

theorem exists_reordered (found : definedNames sources = .ok defined)
    (extracted : Extracted sources defined es) (reordered : sources'.Perm sources) :
    ∃ defined' es', definedNames sources' = .ok defined' ∧ Extracted sources' defined' es' ∧
      es'.Perm es := by
  obtain ⟨defined', found', same⟩ := definedNames_of_perm found reordered
  obtain ⟨es', extracted', perm⟩ := List.perm_comp_forall₂ reordered extracted
  exact ⟨defined', es', found', Extracted.congr extracted' same, perm⟩

theorem imports_of_perm {c' : Choice} (perm : es'.Perm es) :
    (ofChoice es' c').imports = (ofChoice es c).imports :=
  sort_eraseDups_congr fun _ => (perm.flatMap_right _).mem_iff

namespace Choice

def reverse (c : Choice) : Choice :=
  ⟨c.after.reverse, c.chosen, c.before.reverse⟩

theorem all_reverse (c : Choice) : c.reverse.all = c.all.reverse := by
  simp [all, reverse]

theorem make_first (found : first? es = some c) : make .first es = .ok c := by
  rw [make, if_neg (by simp), if_pos rfl, found]

theorem make_last_reverse (found : first? es = some c) :
    make .last es.reverse = .ok c.reverse := by
  have isLast : last? es.reverse = some c.reverse := by
    rw [last?, List.reverse_reverse, found]
    rfl
  rw [make, if_neg (by simp), if_neg (by decide), isLast]

theorem isCandidate_iff {e : Extract} : e.isCandidate = false ↔ e.candidate? = none := by
  rw [Extract.isCandidate, Extract.candidate?, Option.map_eq_none_iff, Option.isSome_eq_false_iff,
    Option.isNone_iff_eq_none]

theorem exists_first {e : Extract} (mem : e ∈ es) (candidate : e.isCandidate = true) :
    ∃ c, first? es = some c := by
  refine Option.ne_none_iff_exists'.1 fun none => ?_
  have other := isCandidate_iff.2 (List.filterMap_eq_nil_iff.1 (first?_eq_none.1 none) e mem)
  rw [candidate] at other
  cases other

theorem others_of_single (all : c.all = es) (candidate : c.chosen.isCandidate = true)
    (single : (es.filterMap Extract.candidate?).length = 1) :
    ∀ e ∈ c.others, e.isCandidate = false := by
  obtain ⟨name, isMain⟩ := Option.isSome_iff_exists.1 candidate
  rw [← all, Choice.all, List.filterMap_append, List.filterMap_cons, Extract.candidate?, isMain,
    Option.map_some, List.length_append, List.length_cons] at single
  have none : c.others.filterMap Extract.candidate? = [] := by
    rw [← List.length_eq_zero_iff, others, List.filterMap_append, List.length_append]
    omega
  exact fun e mem => isCandidate_iff.2 (List.filterMap_eq_nil_iff.1 none e mem)

theorem make_of_perm (all : c.all = es) (candidate : c.chosen.isCandidate = true)
    (single : (es.filterMap Extract.candidate?).length = 1) (perm : es'.Perm es) :
    ∃ front back, es' = front ++ c.chosen :: back ∧
      ∀ p, make p es' = .ok ⟨front, c.chosen, back⟩ := by
  have none := others_of_single all candidate single
  obtain ⟨front, back, rfl⟩ :=
    List.append_of_mem (perm.mem_iff.2 (all ▸ mem_all.2 (.inr rfl)) : c.chosen ∈ es')
  have others : (front ++ back).Perm c.others := by
    rw [← all] at perm
    exact (List.perm_middle.symm.trans (perm.trans List.perm_middle)).cons_inv
  exact ⟨front, back, rfl, fun p =>
    make_of_alone p candidate fun e mem => none e (others.mem_iff.1 mem)⟩

end Choice

theorem erase_of_split {before after : Files} (distinct : sources.names.Nodup)
    (split : sources = before ++ chosen :: after) : sources.erase chosen = before ++ after := by
  have nodup : sources.Nodup := List.Nodup.of_map _ distinct
  rw [split, List.nodup_middle] at nodup
  rw [split, List.erase_append_right _ fun mem =>
    (List.nodup_cons.1 nodup).1 (List.mem_append_left _ mem), List.erase_cons_head]

/-- A choice among what is read of the files is a choice among the files. -/
theorem Extracted.exists_chosen (extracted : Extracted sources defined es)
    (distinct : sources.names.Nodup) (all : c.all = es) (candidate : c.chosen.isCandidate = true) :
    ∃ chosen ∈ sources, chosen.1 = c.chosen.path ∧
      (ofChoice es c).IsMadeOf chosen (sources.erase chosen) := by
  obtain ⟨before, chosen, after, split, front, taken, back⟩ := extracted.exists_split all
  refine ⟨chosen, by simp [split], ?_, ?_⟩
  · obtain ⟨u, -, same⟩ := (List.forall₂_cons.1 taken).1
    rw [same]
    rfl
  · rw [erase_of_split distinct split]
    exact taken.isMadeOf (List.rel_append front back) candidate

end Merge

theorem reverse_erase {α : Type} [BEq α] [LawfulBEq α] {as : List α} (distinct : as.Nodup) (a : α) :
    as.reverse.erase a = (as.erase a).reverse := by
  rw [distinct.erase_eq_filter, (List.nodup_reverse.2 distinct).erase_eq_filter,
    List.filter_reverse]

theorem eq_of_name {files : Files} (distinct : files.names.Nodup) {file file' : Text × Text}
    (mem : file ∈ files) (mem' : file' ∈ files) (same : file.1 = file'.1) : file = file' :=
  List.inj_on_of_nodup_map distinct mem mem' same

/-- The order of the files matters where it is meant to. A single entry point is chosen in any order
and under any policy, and the other files are put together in theirs. Of several, the first is also
the last in reverse. -/
theorem merge_reordered {sources sources' : Files} {asked : Option Text} {configured : Text}
    {r : Merged} (distinct : sources.names.Nodup) (reordered : sources'.Perm sources)
    (merged : merge sources asked configured = .ok r) :
    (sources.entryPoints.length = 1 →
      ∃ chosen ∈ sources, r.IsMadeOf chosen (sources.erase chosen) ∧
      ∀ (p : Policy) (asked' : Option Text) (configured' : Text),
        Policy.effective asked' configured' = p.name →
        ∃ r', merge sources' asked' configured' = .ok r' ∧ r'.imports = r.imports ∧
          r'.mainClassName = r.mainClassName ∧ r'.IsMadeOf chosen (sources'.erase chosen)) ∧
    ∀ (asked₁ asked₂ : Option Text) (configured₁ configured₂ : Text),
      Policy.effective asked₁ configured₁ = Policy.first.name →
      Policy.effective asked₂ configured₂ = Policy.last.name →
      ∃ chosen ∈ sources', ∃ r₁ r₂, merge sources' asked₁ configured₁ = .ok r₁ ∧
        merge sources'.reverse asked₂ configured₂ = .ok r₂ ∧
        r₁.IsMadeOf chosen (sources'.erase chosen) ∧
        r₂.IsMadeOf chosen (sources'.erase chosen).reverse ∧
        r₂.imports = r₁.imports ∧ r₂.mainClassName = r₁.mainClassName ∧
        r₂.demotedEntryPoints = r₁.demotedEntryPoints.reverse := by
  obtain ⟨p, defined, es, c, policy, found, extracted, suits, rfl⟩ := merge_eq_ok merged
  have distinct' : sources'.names.Nodup := (reordered.map _).nodup_iff.2 distinct
  obtain ⟨defined', es', found', extracted', perm⟩ :=
    Merge.exists_reordered found extracted reordered
  have chosenInside : c.chosen ∈ es' :=
    perm.mem_iff.2 (suits.all ▸ Merge.Choice.mem_all.2 (.inr rfl))
  have more : sources' ≠ [] := by
    obtain ⟨file, mem, -⟩ := exists_left_of_mem extracted' chosenInside
    exact List.ne_nil_of_mem mem
  refine ⟨fun single => ?_, fun asked₁ asked₂ configured₁ configured₂ named₁ named₂ => ?_⟩
  · obtain ⟨chosen, inside, path, made⟩ :=
      extracted.exists_chosen distinct suits.all suits.candidate
    refine ⟨chosen, inside, made, fun p' asked' configured' named => ?_⟩
    obtain ⟨front, back, split, choice⟩ := Merge.Choice.make_of_perm suits.all suits.candidate
      (by rw [extracted.candidates, single]) perm
    refine ⟨_, merge_of_extracted (Merge.policy_eq_ok.2 named.symm) more found' extracted'
      (choice p'), Merge.imports_of_perm perm, rfl, ?_⟩
    obtain ⟨chosen', inside', path', made'⟩ :=
      extracted'.exists_chosen (c := ⟨front, c.chosen, back⟩) distinct' split.symm suits.candidate
    have same : chosen' = chosen :=
      eq_of_name distinct (reordered.mem_iff.1 inside') inside (path'.trans path.symm)
    rwa [same] at made'
  · obtain ⟨c', first⟩ := Merge.Choice.exists_first chosenInside suits.candidate
    obtain ⟨all', candidate', -⟩ := Merge.Choice.first?_eq_some first
    obtain ⟨chosen, inside, path, made⟩ := extracted'.exists_chosen distinct' all' candidate'
    obtain ⟨turned, found'', same⟩ := Merge.definedNames_of_perm found' sources'.reverse_perm
    have extracted'' : Merge.Extracted sources'.reverse turned es'.reverse :=
      Merge.Extracted.congr (List.rel_reverse extracted') same
    obtain ⟨chosen', inside', path', made'⟩ :=
      extracted''.exists_chosen (c := c'.reverse)
        ((sources'.reverse_perm.map _).nodup_iff.2 distinct')
        (by rw [← all', Merge.Choice.all_reverse]) candidate'
    obtain rfl : chosen' = chosen :=
      eq_of_name distinct' (List.mem_reverse.1 inside') inside (path'.trans path.symm)
    rw [reverse_erase (List.Nodup.of_map Prod.fst distinct')] at made'
    refine ⟨chosen', inside, _, _,
      merge_of_extracted (Merge.policy_eq_ok.2 named₁.symm) more found' extracted'
        (Merge.Choice.make_first first),
      merge_of_extracted (Merge.policy_eq_ok.2 named₂.symm) (by simpa using more) found''
        extracted''
        (Merge.Choice.make_last_reverse first),
      made, made', Merge.imports_of_perm es'.reverse_perm, rfl, ?_⟩
    rw [made'.demotedEntryPoints, made.demotedEntryPoints, List.filterMap_reverse]

/-- Two files of one text beside the one that declares a main method. -/
def twins : Files :=
  [("a/X.java", "class X \x7b\x7d\n"),
   ("M.java", "import p.Q;\n"
      ++ "public class M \x7b\n  public static void main(String[] a) \x7b\x7d\n\x7d\n"),
   ("b/X.java", "class X \x7b\x7d\n")]

/-- The same in another order, and the first of one entry point as the last of it. -/
theorem merge_reordered_twins : twins.names.Nodup ∧
    ∃ r r' r₁ r₂, merge twins none "last" = .ok r ∧
      merge [twins[1], twins[2], twins[0]] (some "fail") "last" = .ok r' ∧ r'.imports = r.imports ∧
      r'.mainClassName = r.mainClassName ∧
      merge [twins[1], twins[2], twins[0]] none "first" = .ok r₁ ∧
      merge [twins[0], twins[2], twins[1]] none "last" = .ok r₂ ∧ r₂.imports = r₁.imports := by
  have distinct : twins.names.Nodup := by decide
  have reordered : [twins[1], twins[2], twins[0]].Perm twins := by decide +kernel
  obtain ⟨single, merges⟩ : twins.entryPoints.length = 1 ∧
      (merge twins none "last").toOption.isSome := by
    rw [twins]
    repeat rw [ofString_ofList]
    decide +kernel
  obtain ⟨r, merged⟩ := exists_eq_ok merges
  obtain ⟨alone, several⟩ := merge_reordered distinct reordered merged
  obtain ⟨chosen, -, -, any⟩ := alone single
  obtain ⟨r', merged', imports, main, -⟩ := any .fail (some "fail") "last" rfl
  obtain ⟨-, -, r₁, r₂, merged₁, merged₂, -, -, same, -⟩ :=
    several none none "first" "last" rfl rfl
  exact ⟨distinct, r, r', r₁, r₂, merged, merged', imports, main, merged₁, merged₂, same⟩

end JavaUnits
