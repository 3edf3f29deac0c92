import JavaUnits.Proofs.Reordering
import JavaUnits.Proofs.SplitRuns

/-!
What a merge finds below a directory: the source files that the directory leads to, in the order of
the parts of their paths. Nothing else counts for it, neither the order in which names are listed
nor what lies elsewhere, and so the merge chooses the same file.
-/

namespace JavaUnits

open CodePoint

/-- Whether a way down ends with a name as sources have it. -/
def LeadsToSource : Location → Prop :=
  View.EndsIn (sourceExtension <:+ ·)

/-- Of paths with one root the lesser one comes first part by part. -/
theorem Path.partsLt_of_le {p q : Path} (le : p.le q = true) (other : p ≠ q)
    (slashes : p.slashes = q.slashes) : partsLt p.parts q.parts = true := by
  rw [partsLt_iff]
  obtain less | ⟨-, notAbove⟩ := le_iff.1 le
  · omega
  · by_contra notBelow
    obtain ⟨_, parts⟩ := p
    obtain ⟨_, parts'⟩ := q
    obtain rfl : _ = _ := slashes
    exact other (by rw [Std.Trichotomous.trichotomous parts parts' notBelow notAbove])

theorem Glob.matchesText_source_eq :
    (matchesText sourceSigns · = true) = (sourceExtension <:+ ·) := by
  funext name
  refine propext (matchesText_source.trans ?_)
  exact exists_congr fun _ => eq_comm

namespace View

variable {v v' : View} {directory p : Path} {down : Location} {kind : EntryKind}
  {paths : List Path}

/-- Whether the paths are those of the source files that the directory leads to, each once, in the
order of the parts of paths. -/
structure Enumerates (v : View) (directory : Path) (paths : List Path) : Prop where
  sorted : paths.Pairwise fun p q => Path.partsLt p.parts q.parts = true
  mem : ∀ p, p ∈ paths ↔ ∃ down kind, p = directory.below down ∧ v.Leads directory down kind ∧
    LeadsToSource down ∧ v.isFile p = .ok true

section

variable (there : v.isDirectory directory = .ok true)
include there

theorem exists_listSources : (∃ paths, v.listSources directory sourceExtension = .ok paths) ↔
    v.Answers directory (sourceExtension <:+ ·) := by
  rw [← Glob.matchesText_source_eq]
  exact Glob.exists_filesBelow Glob.parts_source there

variable (listed : v.listSources directory sourceExtension = .ok paths)
include listed

theorem mem_listSources : p ∈ paths ↔ ∃ down kind, p = directory.below down ∧
    v.Leads directory down kind ∧ LeadsToSource down ∧ v.isFile p = .ok true := by
  rw [LeadsToSource, ← Glob.matchesText_source_eq]
  exact (Glob.mem_filesBelow Glob.parts_source there listed).2.2 p

theorem enumerates_listSources : v.Enumerates directory paths := by
  obtain ⟨nodup, sorted, -⟩ := Glob.mem_filesBelow Glob.parts_source there listed
  refine ⟨(nodup.and sorted).imp_of_mem fun pMem qMem both => ?_,
    fun p => mem_listSources there listed⟩
  obtain ⟨_, _, rfl, -⟩ := (mem_listSources there listed).1 pMem
  obtain ⟨_, _, rfl, -⟩ := (mem_listSources there listed).1 qMem
  exact Path.partsLt_of_le both.2 both.1 rfl

end

/-! ## The same below a directory -/

/-- Whether in another view the directory leads to the same: the directories below it show the same
names, in whatever order, or are refused alike, and what is named like a source is the same. -/
structure SameBelow (directory : Path) (v v' : View) : Prop where
  top : v'.isDirectory directory = v.isDirectory directory
  shows : ∀ down, v.Leads directory down .directory → ∀ name kind,
    v'.Shows (directory.below down) name kind ↔ v.Shows (directory.below down) name kind
  refuses : ∀ down, v.Leads directory down .directory → ∀ cause,
    v'.names (directory.below down) = .error cause ↔ v.names (directory.below down) = .error cause
  status : ∀ down kind, v.Leads directory down kind → LeadsToSource down →
    v'.status (directory.below down) = v.status (directory.below down)
  read : ∀ down kind, v.Leads directory down kind → LeadsToSource down →
    v'.read (directory.below down) = v.read (directory.below down)

namespace SameBelow

variable (same : SameBelow directory v v')
include same

theorem leads_iff : v'.Leads directory down kind ↔ v.Leads directory down kind := by
  induction down using List.reverseRecOn generalizing kind with
  | nil =>
    constructor <;> intro leads <;> cases leads <;> exact .here directory
  | append_singleton down name ih =>
    rw [leads_concat, leads_concat, ih]
    exact and_congr_right fun leads => same.shows down leads name kind

theorem isFile_eq (leads : v.Leads directory down kind) (ends : LeadsToSource down) :
    v'.isFile (directory.below down) = v.isFile (directory.below down) := by
  rw [isFile, lookUp, same.status down kind leads ends, isFile, lookUp]

variable (there : v.isDirectory directory = .ok true)
  (listed : v.listSources directory sourceExtension = .ok paths)
include there listed

theorem listSources_eq : v'.listSources directory sourceExtension = .ok paths := by
  have answers := (exists_listSources there).1 ⟨paths, listed⟩
  have there' := same.top.trans there
  obtain ⟨paths', listed'⟩ := (exists_listSources there').2 {
    lists := fun down leads cause refused =>
      have leads := same.leads_iff.1 leads
      answers.lists down leads cause ((same.refuses down leads cause).1 refused)
    tells := fun down kind leads ends => by
      have leads := same.leads_iff.1 leads
      rw [same.isFile_eq leads ends]
      exact answers.tells down kind leads ends }
  obtain ⟨nodup, sorted, -⟩ := Glob.mem_filesBelow Glob.parts_source there listed
  obtain ⟨nodup', sorted', -⟩ := Glob.mem_filesBelow Glob.parts_source there' listed'
  rw [listed', Path.eq_of_mem_iff nodup' nodup sorted' sorted fun p => ?_]
  rw [mem_listSources there' listed', mem_listSources there listed]
  refine exists_congr fun down => exists_congr fun kind => ?_
  rw [same.leads_iff]
  refine and_congr_right fun here => and_congr_right fun leads => and_congr_right fun ends => ?_
  rw [here, same.isFile_eq leads ends]

theorem readSources_eq : v'.readSources directory paths = v.readSources directory paths := by
  have each (p : Path) (mem : p ∈ paths) : v'.readSource p = v.readSource p := by
    obtain ⟨down, kind, rfl, leads, ends, -⟩ := (mem_listSources there listed).1 mem
    rw [readSource, content, same.read down kind leads ends, readSource, content]
  clear listed
  induction paths with
  | nil => rfl
  | cons p ps ih =>
    rw [List.forall_mem_cons] at each
    rw [readSources, readSources, each.1, ih each.2]

theorem survey_eq (configured : Text) (asked : Option Text) :
    v'.survey configured directory asked = v.survey configured directory asked := by
  rw [survey, survey, gather_eq there listed, gather_eq (same.top.trans there)
    (same.listSources_eq there listed), same.readSources_eq there listed]

end SameBelow

/-- A merge is made of a file chosen among those that were read. -/
theorem exists_chosen_of_survey {configured : Text} {asked : Option Text} {merged : Merged}
    (listed : v.listSources directory sourceExtension = .ok paths)
    (surveyed : v.survey configured directory asked = .ok merged) :
    ∃ before chosen after, v.readSources directory paths = .ok (before ++ chosen :: after) ∧
      merged.IsMadeOf chosen (before ++ after) := by
  obtain ⟨files, gathered, ran⟩ := bind_eq_ok.1 surveyed
  obtain ⟨paths', listed', -, read⟩ := gather_eq_ok gathered
  obtain rfl := Except.ok.inj (listed.symm.trans listed')
  obtain ⟨p, defined, es, c, -, -, extracted, suits, rfl⟩ := merge_eq_ok (mapError_eq_ok.1 ran)
  obtain ⟨before, chosen, after, rfl, front, taken, back⟩ := extracted.exists_split suits.all
  exact ⟨before, chosen, after, read, taken.isMadeOf (List.rel_append front back) suits.candidate⟩

end View

end JavaUnits
