import JavaUnits.Proofs.Faults

/-!
Splitting and merging on the storage. A split into a place without files leaves there the files of
the split text and no others, and a merge of that place ends as the merge of those files ends, taken
in the order of their names. Where the storage refuses nothing, this is all that happens.
-/

namespace JavaUnits

open CodePoint Text

/-! ## Files in the order of names -/

namespace Files

def sorted (files : Files) : Files :=
  files.mergeSort fun file other => file.1.le other.1

variable {files : Files}

theorem perm_sorted (files : Files) : files.sorted.Perm files :=
  List.mergeSort_perm files _

theorem pairwise_sorted (files : Files) :
    files.sorted.Pairwise fun file other => file.1.le other.1 = true := by
  apply List.pairwise_mergeSort
  · exact fun _ _ _ => le_trans
  · exact fun file other => le_total file.1 other.1

theorem sorted_of_perm {others : Files} (nodup : files.names.Nodup) (same : files.Perm others)
    (ordered : others.Pairwise fun file other => file.1.le other.1 = true) :
    files.sorted = others := by
  have perm := files.perm_sorted
  refine (perm.trans same).eq_of_pairwise (fun file other mem mem' le le' => ?_)
    files.pairwise_sorted ordered
  exact List.inj_on_of_nodup_map nodup (perm.mem_iff.1 mem) (same.mem_iff.2 mem')
    (le_antisymm le le')

end Files

namespace Path

variable {p : Path}

theorem partsLt_append (front : List Text) (a b : Text) :
    partsLt (front ++ [a]) (front ++ [b]) = a.lt b := by
  induction front with
  | nil => simp [partsLt]
  | cons part front ih => simp [partsLt, lt_irrefl, ih]

/-- What lies in one directory is in the order of names. -/
theorem le_child (p : Path) (a b : Text) : (p.child a).le (p.child b) = a.le b := by
  simp only [le, child, if_true, partsLt_append, Text.le]

theorem child_injective (p : Path) : Function.Injective p.child := by
  intro a b same
  simpa [child] using same

theorem toText_relativeTo_child (p : Path) (name : Text) :
    (p.relativeTo (p.child name)).toText = name := by
  simp [relativeTo, child, toText, join]

end Path

/-! ## What a split is made of -/

namespace SplitFiles

variable {s : Text} {parts : SplitFiles}

/-- Files split from a text without escapes are made of what the text holds. -/
theorem mem_of_split (plain : s.unifyBreaks.IsPlain) (splits : split s = .ok parts)
    {file : Text × Text} (mem : file ∈ parts.files) {c : CodePoint} (inside : c ∈ file.2) :
    c ∈ s.unifyBreaks ∨ c ∈ Text.ofString "import static ;public \n" := by
  obtain ⟨u, parsed, same⟩ := bind_eq_ok.1 splits
  obtain rfl := Except.ok.inj same
  obtain ⟨t, -, rfl⟩ := List.mem_map.1 (Files.mem_ofPairs mem)
  have words {words : Text} (within : ∀ d ∈ words, d ∈ Text.ofString "import static ;public \n")
      (mem : c ∈ words) : c ∈ Text.ofString "import static ;public \n" := within c mem
  rcases mem_fileText inside with rfl | ⟨i, imported, mem⟩ | mem | mem
  · exact .inr (by decide)
  · obtain ⟨ts, read⟩ := exists_tokenize_of_parse parsed
    have items := items_of_tokenize read
    rw [(CompilationUnit.outlines_of_parse parsed).imports, items] at imported
    obtain ⟨item, listed, role⟩ := List.mem_filterMap.1 imported
    obtain ⟨-, rfl⟩ := Item.import?_eq_some role
    rcases Import.mem_text mem with word | ⟨token, isToken, mem⟩
    · exact .inr (words (by decide) word)
    · obtain ⟨d, decoded, rfl⟩ := tokenize_eq_ok read
      have same := decode_of_decodeEscapes (decodeEscapes_of_isPlain plain)
      obtain rfl := Except.ok.inj (decoded.symm.trans same)
      exact .inl ((lexeme_of_mem_tokens (Item.mem_of_mem_group listed isToken)).2 c mem)
  · exact .inl (code_of_parse parsed ▸ mem)
  · exact .inr (words (by decide) mem)

end SplitFiles

namespace Storage.HoldsSource

variable {s : Storage} {p : Path} {text : Text}

theorem unifyBreaks_eq (holds : s.HoldsSource p text) : text.unifyBreaks = text := by
  obtain ⟨content, raw, -, -, rfl⟩ := holds
  exact unifyBreaks_of_notMem raw.notMem_unifyBreaks

theorem isScalar (holds : s.HoldsSource p text) : text.IsScalar := by
  obtain ⟨content, raw, -, decoded, rfl⟩ := holds
  exact (Utf8.isScalar_of_decodeMarked decoded).unifyBreaks

end Storage.HoldsSource

namespace Action

open Storage

variable {s s' m : Storage} {source directory target : Path} {text : Text} {parts : SplitFiles}
  {configured : Text} {asked : Option Text}

/-! ## Splitting -/

/-- Where no source can be read and split, nothing is made. -/
theorem splitFile_unsplit
    (unsplit : ∀ text parts, (readSource source).run.run s = (.ok text, s) → split text ≠ .ok parts)
    (directory : Path) : ((splitFile source directory).run.run s).2 = s := by
  refine IsReading.bind_cases (P := fun ran => ran.2 = s) (isReading_ask _) (fun _ => rfl)
    fun there _ => ?_
  cases there with
  | false => rfl
  | true =>
    refine IsReading.bind_cases (P := fun ran => ran.2 = s) (isReading_ask _)
      (fun _ => rfl) fun text reads => ?_
    cases splits : split text with
    | error e => rfl
    | ok parts => exact absurd splits (unsplit text parts reads)

/-- Makes the directory and puts the files into it. -/
def layOut (directory : Path) (files : Files) : Action (List Path) := do
  wrapErrors (.cannotCreate directory) (makeDirectories directory)
  let files := files.map fun (name, s) => (directory.child name, s)
  writeAll files
  return files.map Prod.fst

theorem failsByStorage_layOut {files : Files} (scalar : ∀ file ∈ files, file.2.IsScalar)
    (directory : Path) : (layOut directory files).FailsByStorage := by
  refine ((failsByStorage_makeDirectories directory).wrapErrors fun _ => rfl).bind fun _ => ?_
  refine (failsByStorage_writeAll fun file listed => ?_).bind fun _ => failsByStorage_pure _
  obtain ⟨file, inside, rfl⟩ := List.mem_map.1 listed
  exact scalar file inside

theorem run_splitFile (reads : (readSource source).run.run s = (.ok text, s)) (directory : Path) :
    (splitFile source directory).run.run s =
      match split text with
      | .error e => (.error (.unit e), s)
      | .ok parts => (layOut directory parts.files).run.run s := by
  obtain ⟨noNull, content, -, there, -⟩ := readSource_eq_ok reads
  have isFile := run_isFile noNull there
  rw [splitFile, run_bind, isFile]
  simp only [if_true]
  rw [run_bind, reads]
  simp only
  cases split text <;> rfl

/-- A split that the storage serves ends as the text is split. -/
theorem splitFile_eq_ok_of_served (reads : (readSource source).run.run s = (.ok text, s))
    (splits : split text = .ok parts) (scalar : ∀ file ∈ parts.files, file.2.IsScalar)
    (served : (splitFile source directory).IsServed s) :
    ∃ m s', (splitFile source directory).run.run s
        = (.ok (parts.files.names.map directory.child), s') ∧
      (makeDirectories directory).run.run s = (.ok (), m) ∧
      (writeAll (parts.files.map fun file => (directory.child file.1, file.2))).run.run m
        = (.ok (), s') := by
  have run : (splitFile source directory).run.run s = (layOut directory parts.files).run.run s := by
    rw [run_splitFile reads, splits]
  obtain ⟨paths, s', ran⟩ := (failsByStorage_layOut scalar directory).exists_ok
    fun fault s' failed => served (run.trans failed)
  rw [← run] at ran
  obtain ⟨text', parts', m, holds, splits', made, written, rfl⟩ := splitFile_eq_ok ran
  obtain rfl := (readSource_eq_ok reads).2.unique holds
  obtain rfl := Except.ok.inj (splits.symm.trans splits')
  exact ⟨m, s', ran, made, written⟩

/-- Whether a split has put its files into the directory, and changed nothing but them and the
directories on the way. -/
structure SplitsInto (parts : SplitFiles) (directory : Path) (s s' : Storage) : Prop where
  files : ∀ file ∈ parts.files, ∃ content, Utf8.encode file.2 = .ok content ∧
    s'.status (directory.child file.1) = .ok (some (.file content))
  others : ∀ l content, directory.place <+: l → s'.get? l = some (.file content) →
    ∃ name ∈ parts.files.names, l = directory.place ++ [name]
  within : s.StaysWithin (fun l => ∃ name ∈ parts.files.names, l = directory.place ++ [name])
    (fun l => ∃ n, l = (directory.front n).place) s'

theorem staysWithin_splitFile (splits : split text = .ok parts)
    (made : (makeDirectories directory).run.run s = (.ok (), m))
    (written : (writeAll (parts.files.map fun file => (directory.child file.1, file.2))).run.run m
      = (.ok (), s')) :
    s.StaysWithin (fun l => ∃ name ∈ parts.files.names, l = directory.place ++ [name])
      (fun l => ∃ n, l = (directory.front n).place) s' := by
  have makes := growsTo_makeDirectories directory s
  rw [made] at makes
  refine StaysWithin.trans (makes.staysWithin fun n => .inr ⟨n, rfl⟩) ?_
  have writes :
      (writeAll (parts.files.map fun file => (directory.child file.1, file.2))).ChangesOnly
      (fun l => ∃ name ∈ parts.files.names, l = directory.place ++ [name])
      (fun l => ∃ n, l = (directory.front n).place) := by
    refine changesOnly_writeAll fun file listed => ?_
    obtain ⟨⟨name, content⟩, mem, rfl⟩ := List.mem_map.1 listed
    have named : name ∈ parts.files.names := List.mem_map_of_mem mem
    exact ⟨name, named, Path.place_child (ne_parentName_of_split splits named) _⟩
  have wrote := writes m
  rwa [written] at wrote

/-! ## Merging -/

section

variable (served : (mergeDirectory configured directory target asked).IsServed s)
include served

theorem IsServed.of_gather {fault : Fault} (failed : s.view.gather directory = .error fault) :
    fault.isOfStorage = false := by
  have surveyed : s.view.survey configured directory asked = .error fault := by
    rw [View.survey, failed]
    rfl
  exact served (by rw [run_mergeDirectory, surveyed])

variable (there : s.view.isDirectory directory = .ok true)
include there

theorem IsServed.exists_listSources :
    ∃ paths, s.view.listSources directory sourceExtension = .ok paths := by
  cases listed : s.view.listSources directory sourceExtension with
  | ok paths => exact ⟨paths, rfl⟩
  | error fault =>
    have blamed := s.view.failsByStorage_listSources directory listed
    rw [served.of_gather] at blamed
    · cases blamed
    · rw [View.gather, there, ok_bind, if_pos rfl]
      simp only [listed, error_bind]

theorem IsServed.exists_readSources {paths : List Path}
    (listed : s.view.listSources directory sourceExtension = .ok paths)
    (fails : View.FailsByStorage (s.view.readSources directory paths)) :
    ∃ files, s.view.readSources directory paths = .ok files := by
  cases read : s.view.readSources directory paths with
  | ok files => exact ⟨files, rfl⟩
  | error fault =>
    have blamed := fails read
    rw [served.of_gather] at blamed
    · cases blamed
    · rw [View.gather_eq there listed, if_neg, read]
      intro none
      rw [List.isEmpty_iff.1 none] at read
      cases read

end

theorem failsByStorage_deliver {merged : Merged} (scalar : merged.content.IsScalar)
    (target : Path) : (deliver target merged).FailsByStorage :=
  (((failsByStorage_makeDirectories target.parent).bind fun _ =>
    failsByStorage_write scalar target).wrapErrors fun _ => rfl).bind fun _ =>
      failsByStorage_pure merged

/-- What was delivered is at its target, and nothing else has changed but the directories on the
way. -/
theorem deliver_eq_ok {merged answered : Merged}
    (ran : (deliver target merged).run.run s = (.ok answered, s')) :
    answered = merged ∧ (∃ content, Utf8.encode merged.content = .ok content ∧
      s'.status target = .ok (some (.file content))) ∧
      s.StaysWithin (fun l => l = target.place)
        (fun l => ∃ n, l = (target.parent.front n).place) s' := by
  obtain ⟨_, m, wrote, ran⟩ := Action.bind_eq_ok ran
  obtain ⟨rfl, rfl⟩ := pure_eq_ok ran
  obtain ⟨_, grown, made, written⟩ := Action.bind_eq_ok (wrapErrors_eq_ok wrote)
  obtain ⟨content, encoded, -, there⟩ := status_of_write written
  refine ⟨rfl, ⟨content, encoded, there⟩, ?_⟩
  have makes := growsTo_makeDirectories target.parent s
  rw [made] at makes
  obtain ⟨content, -, -, -, rfl⟩ := write_eq_ok written
  refine StaysWithin.trans (makes.staysWithin fun n => .inr ⟨n, rfl⟩) (staysWithin_put ?_ _ _)
  rfl

theorem readSources_eq_of_holds {files read : Files}
    (holds : ∀ file ∈ files, s.HoldsSource (directory.child file.1) file.2)
    (ran : s.view.readSources directory (files.names.map directory.child) = .ok read) :
    read = files := by
  induction files generalizing read with
  | nil => exact (Except.ok.inj ran).symm
  | cons file files ih =>
    rw [List.forall_mem_cons] at holds
    obtain ⟨source, first, ran⟩ := JavaUnits.bind_eq_ok.1 ran
    obtain ⟨later, rest, same⟩ := JavaUnits.bind_eq_ok.1 ran
    rw [← Except.ok.inj same, ih holds.2 rest, Path.toText_relativeTo_child,
      holds.1.unique (Storage.holdsSource_of_readSource first).2]

section

variable (splits : split text = .ok parts)
  (made : (makeDirectories directory).run.run s = (.ok (), m))
  (written : (writeAll (parts.files.map fun file => (directory.child file.1, file.2))).run.run m
    = (.ok (), s'))
  (bare : ∀ l content, directory.place <+: l → s.get? l ≠ some (.file content))
include splits made written bare

theorem splitsInto_of_bare : SplitsInto parts directory s s' where
  files := fun file listed => by
    obtain ⟨content, encoded, -, there⟩ := status_of_split splits written file listed
    exact ⟨content, encoded, there⟩
  others := fun l content below there => by
    rcases get?_of_split splits made written l with mine | same | ⟨-, new⟩
    · exact mine
    · exact absurd (same.symm.trans there) (bare l content below)
    · rw [there] at new
      cases new
  within := staysWithin_splitFile splits made written

/-- A merge finds the files of the split in the order of their names, and no others. -/
theorem listSources_of_split (tree : s'.IsTree) {paths : List Path}
    (listed : s'.view.listSources directory sourceExtension = .ok paths) :
    paths = parts.files.sorted.names.map directory.child := by
  obtain ⟨nodup, sorted, mem⟩ := Glob.filesBelow_eq_ok tree Glob.parts_source listed
  have perm : parts.files.sorted.names.Perm parts.files.names := parts.files.perm_sorted.map _
  refine Path.eq_of_mem_iff nodup ?_ sorted ?_ fun p => ?_
  · exact (perm.nodup_iff.2 (nodup_names_of_split splits)).map directory.child_injective
  · rw [Files.names, List.map_map, List.pairwise_map]
    exact parts.files.pairwise_sorted.imp fun le => (directory.le_child _ _).trans le
  · rw [mem, (perm.map _).mem_iff]
    constructor
    · intro found
      rcases finds_of_split splits made written found with here | ⟨below, same⟩
      · exact here
      · obtain ⟨-, -, -, -, -, content, there⟩ := found
        exact absurd (same.trans (status_eq_some.1 there).2) (bare _ content below)
    · intro inside
      obtain ⟨name, named, rfl⟩ := List.mem_map.1 inside
      exact finds_child splits written (fun t => Glob.matchesText_source.2 ⟨t, rfl⟩) named

end

/-- Whether a merge of the directory ends as the merge of the files ends, and changes nothing but
its target and the directories on the way. Where there are no files, this is said before anything is
found wrong with the policy. -/
structure MergesAs (files : Files) (directory target : Path) (configured : Text)
    (asked : Option Text) (s : Storage) : Prop where
  ok : ∀ merged, merge files asked configured = .ok merged →
    ∃ s', (mergeDirectory configured directory target asked).run.run s = (.ok merged, s') ∧
      (∃ content, Utf8.encode merged.content = .ok content ∧
        s'.status target = .ok (some (.file content))) ∧
      s.StaysWithin (fun l => l = target.place) (fun l => ∃ n, l = (target.parent.front n).place) s'
  error : ∀ e, merge files asked configured = .error e →
    ∃ fault, (mergeDirectory configured directory target asked).run.run s = (.error fault, s) ∧
      (fault = .merge e ∨ files = [] ∧ fault = .noSourceFiles directory) ∧
      (files ≠ [] ∨ (∃ p, Merge.policy asked configured = .ok p) →
        fault.refusal?.map (fun r => (r.kind, r.candidates))
          = e.refusal?.map fun r => (r.kind, r.candidates))

/-- A merge ends as the merge of the files that it lists and reads, where the storage serves it. -/
theorem mergesAs_of_listed (there : s.view.isDirectory directory = .ok true) {files : Files}
    (listed : s.view.listSources directory sourceExtension
      = .ok (files.names.map directory.child))
    (read : s.view.readSources directory (files.names.map directory.child) = .ok files)
    (scalar : ∀ file ∈ files, file.2.IsScalar)
    (hides : ∀ file ∈ files, file.2.unifyBreaks.HidesSurrogates)
    (served : (mergeDirectory configured directory target asked).IsServed s) :
    MergesAs files directory target configured asked s := by
  have surveyed : s.view.survey configured directory asked =
      if files.isEmpty then .error (.noSourceFiles directory)
      else (merge files asked configured).mapError .merge := by
    rw [View.survey, View.gather_eq there listed, read]
    cases files <;> rfl
  have run := run_mergeDirectory configured directory target asked s
  rw [surveyed] at run
  cases files with
  | nil =>
    constructor
    · intro merged ran
      obtain ⟨p, -, never⟩ := JavaUnits.bind_eq_ok.1 ran
      cases never
    · intro e failed
      refine ⟨.noSourceFiles directory, run, .inr ⟨rfl, rfl⟩, fun known => ?_⟩
      obtain ⟨p, known⟩ := known.resolve_left fun never => never rfl
      rw [merge, known] at failed
      obtain rfl := Except.error.inj failed
      rfl
  | cons file files =>
    simp only [List.isEmpty_cons, Bool.false_eq_true, if_false] at run
    constructor
    · intro merged ran
      have content := (Merge.isScalar_of_merge scalar hides ran).1
      rw [ran] at run
      obtain ⟨answered, s', delivered⟩ := (failsByStorage_deliver content target).exists_ok
        fun fault s' failed => served (run.trans failed)
      obtain ⟨rfl, wrote, within⟩ := deliver_eq_ok delivered
      exact ⟨s', run.trans delivered, wrote, within⟩
    · intro e failed
      rw [failed] at run
      exact ⟨.merge e, run, .inl rfl, fun _ => rfl⟩

/-- What a split leaves is merged as its files are. -/
theorem mergesAs_of_split (splits : split text = .ok parts)
    (made : (makeDirectories directory).run.run s = (.ok (), m))
    (written : (writeAll (parts.files.map fun file => (directory.child file.1, file.2))).run.run m
      = (.ok (), s'))
    (bare : ∀ l content, directory.place <+: l → s.get? l ≠ some (.file content)) (tree : s'.IsTree)
    (scalar : ∀ file ∈ parts.files, file.2.IsScalar)
    (unmarked : ∀ file ∈ parts.files, Utf8.mark ∉ file.2 ∧ ofChar '\r' ∉ file.2)
    (hides : ∀ file ∈ parts.files, file.2.HidesSurrogates)
    (served : (mergeDirectory configured directory target asked).IsServed s') :
    MergesAs parts.files.sorted directory target configured asked s' := by
  have inside {file : Text × Text} (mem : file ∈ parts.files.sorted) : file ∈ parts.files :=
    parts.files.perm_sorted.mem_iff.1 mem
  have there : s'.view.isDirectory directory = .ok true := by
    have there := makeDirectories_eq_ok made
    have keeps := keepsDirectories_writeAll
      (parts.files.map fun file => (directory.child file.1, file.2)) m
    rw [written] at keeps
    exact View.isDirectory_eq_true.2 ⟨hasNull_of_makeDirectories made,
      status_of_keeps keeps there (keeps.directory _ (status_eq_some.1 there).2)⟩
  have holds (file : Text × Text) (mem : file ∈ parts.files.sorted) : ∃ content,
      s'.status (directory.child file.1) = .ok (some (.file content)) ∧
        Utf8.decodeMarked content = .ok file.2 := by
    obtain ⟨content, encoded, -, there⟩ := status_of_split splits written file (inside mem)
    rw [Utf8.encode_of_isScalar (scalar file (inside mem))] at encoded
    refine ⟨content, there, ?_⟩
    rw [← Except.ok.inj encoded]
    exact Utf8.decodeMarked_flatMap (scalar file (inside mem)) (unmarked file (inside mem)).1
  obtain ⟨paths, listed⟩ := served.exists_listSources there
  obtain rfl := listSources_of_split splits made written bare tree listed
  have fails : View.FailsByStorage (s'.view.readSources directory
      (parts.files.sorted.names.map directory.child)) := by
    refine View.failsByStorage_readSources fun p mem => View.failsByStorage_readSource ?_
    obtain ⟨name, named, rfl⟩ := List.mem_map.1 mem
    obtain ⟨file, listed, rfl⟩ := List.mem_map.1 named
    obtain ⟨content, there, decoded⟩ := holds file listed
    intro content' read
    have read := (read_eq_ok.1 (View.content_eq_ok.1 read).2).1
    rw [there, Except.ok.injEq, Option.some.injEq, Entry.file.injEq] at read
    exact ⟨file.2, read ▸ decoded⟩
  obtain ⟨read, ran⟩ := served.exists_readSources there listed fails
  obtain rfl := readSources_eq_of_holds (fun file mem => by
    obtain ⟨content, there, decoded⟩ := holds file mem
    exact ⟨content, file.2, there, decoded,
      (unifyBreaks_of_notMem (unmarked file (inside mem)).2).symm⟩) ran
  refine mergesAs_of_listed there listed ran (fun file mem => scalar file (inside mem))
    (fun file mem => ?_) served
  rw [unifyBreaks_of_notMem (unmarked file (inside mem)).2]
  exact hides file (inside mem)

/-- Types that do not stand in the order of their names. -/
def catalogue : Text :=
  "enum Kind \x7b GOOD \x7d\nclass Shop \x7b public static void main(String[] a) \x7b\x7d \x7d\n"
    ++ "/* sold */ interface Item \x7b Kind kind(); \x7d\n"

def catalogueItem : Text × Text :=
  ("Item.java", "/* sold */ public interface Item \x7b Kind kind(); \x7d\n")

def catalogueKind : Text × Text :=
  ("Kind.java", "public enum Kind \x7b GOOD \x7d\n")

def catalogueShop : Text × Text :=
  ("Shop.java", "public class Shop \x7b public static void main(String[] a) \x7b\x7d \x7d\n")

def catalogueParts : SplitFiles :=
  ⟨[catalogueKind, catalogueShop, catalogueItem], ["Kind", "Shop", "Item"]⟩

def catalogueFiles : Files :=
  [catalogueItem, catalogueKind, catalogueShop]

/-- What a split of the types leaves. -/
def catalogued : Storage :=
  { entries := (["lib", "Item.java"], .file (catalogueItem.2.flatMap Utf8.encodeCodePoint))
      :: (["lib", "Shop.java"], .file (catalogueShop.2.flatMap Utf8.encodeCodePoint))
      :: (["lib", "Kind.java"], .file (catalogueKind.2.flatMap Utf8.encodeCodePoint))
      :: (["lib"], .directory) :: (submission catalogue).entries }

theorem splitFile_catalogue :
    (splitFile (Path.ofText "src/Main.java") (Path.ofText "lib")).run.run (submission catalogue)
      = (.ok [Path.ofText "lib/Kind.java", Path.ofText "lib/Shop.java",
          Path.ofText "lib/Item.java"], catalogued) := by
  show @Eq (Except Fault (List Path) × Storage) _ _
  rw [catalogued, catalogueItem, catalogueShop, catalogueKind, catalogue]
  repeat rw [ofString_ofList]
  decide +kernel

theorem isDirectory_catalogued : catalogued.view.isDirectory (Path.ofText "lib") = .ok true := by
  decide +kernel

theorem listSources_catalogued : catalogued.view.listSources (Path.ofText "lib") sourceExtension
    = .ok (catalogueFiles.names.map (Path.ofText "lib").child) :=
  Glob.filesBelow_of_perm Glob.parts_source isDirectory_catalogued (by decide +kernel)
    (by decide +kernel) (by decide +kernel) (by decide +kernel)

def program : Text :=
  "public class Main \x7b public static void main(String[] a) \x7b\x7d \x7d\n"

/-- A file without types beside a directory with a program. -/
def neighbours : Storage :=
  { entries := [(["M.java"], .file (Utf8.encodeCodePoint '\n')), (["lib"], .directory),
      (["lib", "Main.java"], .file (program.flatMap Utf8.encodeCodePoint))] }

end Action

end JavaUnits
