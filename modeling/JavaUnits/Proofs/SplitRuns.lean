import Mathlib.Data.List.Nodup
import JavaUnits.Proofs.Listing

/-!
Splits into a directory: what they leave there, and what a merge finds there. Every file of a split
has a name that the pattern of a merge fits.
-/

namespace JavaUnits

open Storage

/-! ## Names that are found -/

namespace Glob

theorem matchesText_exactly (s t : Text) : matchesText (s.map .exactly) t = true ↔ t = s := by
  induction s generalizing t with
  | nil => simp [matchesText]
  | cons c s ih =>
    cases t with
    | nil => simp [matchesText]
    | cons d t => simp [matchesText, ih, Sign.holds]

theorem matchesText_anyText (signs : List Sign) (s : Text) :
    matchesText (.anyText :: signs) s = true ↔
      ∃ front back, s = front ++ back ∧ matchesText signs back = true := by
  induction s with
  | nil => simp [matchesText]
  | cons c s ih =>
    rw [matchesText, Bool.or_eq_true, ih]
    constructor
    · rintro (now | ⟨front, back, rfl, later⟩)
      · exact ⟨[], _, rfl, now⟩
      · exact ⟨c :: front, back, rfl, later⟩
    · rintro ⟨front, back, parts, fits⟩
      cases front with
      | nil =>
        rw [parts, List.nil_append]
        exact .inl fits
      | cons d front =>
        obtain ⟨rfl, rfl⟩ := List.cons.inj parts
        exact .inr ⟨front, back, rfl, fits⟩

/-- The signs by which a merge finds its sources. -/
def sourceSigns : List Sign :=
  .anyText :: sourceExtension.map .exactly

theorem parts_source :
    parts (CodePoint.ofChar '*' :: sourceExtension) = .ok [.pattern sourceSigns] := by
  decide +kernel

theorem matchesText_source {name : Text} :
    matchesText sourceSigns name = true ↔ ∃ t : Text, name = t ++ sourceExtension := by
  simp [sourceSigns, matchesText_anyText, matchesText_exactly]

theorem exists_parts {v : View} {directory : Path} {pattern : Text} {found : List Path}
    (listed : filesBelow v directory pattern = .ok found) : ∃ ps, parts pattern = .ok ps := by
  obtain ⟨ps, parted, -⟩ := JavaUnits.bind_eq_ok.1 listed
  exact ⟨ps, parted⟩

end Glob

theorem View.gather_eq {v : View} {directory : Path} {paths : List Path}
    (there : v.isDirectory directory = .ok true)
    (listed : v.listSources directory sourceExtension = .ok paths) :
    v.gather directory =
      if paths.isEmpty then .error (.noSourceFiles directory)
      else v.readSources directory paths := by
  rw [gather, there, ok_bind, if_pos rfl]
  simp only [listed, ok_bind]
  cases paths <;> rfl

theorem View.gather_eq_ok {v : View} {directory : Path} {files : Files}
    (gathered : v.gather directory = .ok files) :
    ∃ paths, v.listSources directory sourceExtension = .ok paths ∧ paths ≠ [] ∧
      v.readSources directory paths = .ok files := by
  obtain ⟨there, -, gathered⟩ := bind_eq_ok.1 gathered
  cases there with
  | false => cases gathered
  | true =>
    obtain ⟨paths, listed, gathered⟩ := bind_eq_ok.1 gathered
    cases paths with
    | nil => cases gathered
    | cons p ps => exact ⟨_, listed, List.cons_ne_nil p ps, gathered⟩

/-! ## Files of a split -/

theorem nodup_names_of_split {source : Text} {parts : SplitFiles}
    (splits : split source = .ok parts) : parts.files.names.Nodup := by
  obtain ⟨u, -, made⟩ := JavaUnits.bind_eq_ok.1 splits
  obtain rfl := Except.ok.inj made
  exact Files.nodup_names_ofPairs _

namespace Action

variable {s m s' : Storage} {directory : Path} {text : Text} {parts : SplitFiles}
  (splits : split text = .ok parts)
  (made : (makeDirectories directory).run.run s = (.ok (), m))
  (written : (writeAll (parts.files.map fun file => (directory.child file.1, file.2))).run.run
    m = (.ok (), s'))
include splits made written

/-- A split changes nothing but its files and the directories on the way. -/
theorem get?_of_split (l : Location) :
    (∃ name ∈ parts.files.names, l = directory.place ++ [name]) ∨ s'.get? l = s.get? l ∨
      s.get? l = none ∧ s'.get? l = some .directory := by
  have wrote : (writeAll (parts.files.map fun file =>
      (directory.child file.1, file.2))).ChangesOnly
      (fun l => ∃ name ∈ parts.files.names, l = directory.place ++ [name])
      (fun _ => False) := by
    refine changesOnly_writeAll fun file listed => ?_
    obtain ⟨⟨name, content⟩, mem, rfl⟩ := List.mem_map.1 listed
    have named : name ∈ parts.files.names := List.mem_map_of_mem mem
    exact ⟨name, named, Path.place_child (ne_parentName_of_split splits named) _⟩
  have grows := (growsTo_makeDirectories directory s).place l
  have wrote := wrote m l
  rw [made] at grows
  rw [written] at wrote
  rcases wrote with same | mine | ⟨-, -, never⟩
  · rw [same]
    rcases grows with same | ⟨none, new, -⟩
    · exact .inr (.inl same)
    · exact .inr (.inr ⟨none, new⟩)
  · exact .inl mine
  · exact never.elim

omit splits in
theorem limits_of_split : s'.limits = s.limits := by
  have grows := growsTo_makeDirectories directory s
  have keeps := keepsDirectories_writeAll
    (parts.files.map fun file => (directory.child file.1, file.2)) m
  rw [made] at grows
  rw [written] at keeps
  exact keeps.limits.trans grows.limits

omit made in
theorem status_of_split : ∀ file ∈ parts.files, ∃ content, Text.Utf8.encode file.2 = .ok content ∧
    (directory.child file.1).hasNull = false ∧
      s'.status (directory.child file.1) = .ok (some (.file content)) := by
  have places : ((parts.files.map fun file => (directory.child file.1, file.2)).map
      fun file => file.1.place).Nodup := by
    have inj := (nodup_names_of_split splits).map_on
      (f := fun name => (directory.child name).place) fun name named name' named' same => by
        rw [Path.place_child (ne_parentName_of_split splits named),
          Path.place_child (ne_parentName_of_split splits named')] at same
        simpa using same
    rw [Files.names, List.map_map] at inj
    rwa [List.map_map]
  exact fun file listed => writeAll_eq_ok places written _ (List.mem_map_of_mem listed)

/-- What a merge finds after a split is a file of the split, or was there before. -/
theorem finds_of_split {signs : List Glob.Sign} {p : Path}
    (found : Glob.Finds s' directory signs p) :
    p ∈ parts.files.names.map directory.child ∨
      directory.place <+: p.place ∧ s.get? p.place = s'.get? p.place := by
  obtain ⟨down, rfl, names, -, -, content, file⟩ := found
  obtain ⟨-, file⟩ := status_eq_some.1 file
  rw [Path.place_below names] at file ⊢
  rcases get?_of_split splits made written (directory.place ++ down) with
    ⟨name, mem, same⟩ | same | ⟨-, new⟩
  · rw [List.append_cancel_left_eq] at same
    subst same
    exact .inl (List.mem_map_of_mem mem)
  · exact .inr ⟨List.prefix_append _ _, same.symm⟩
  · rw [file] at new
    cases new

omit made in
theorem finds_child {signs : List Glob.Sign}
    (fits : ∀ t : Text, Glob.matchesText signs (t ++ sourceExtension) = true) {name : Text}
    (named : name ∈ parts.files.names) : Glob.Finds s' directory signs (directory.child name) := by
  obtain ⟨t, rfl⟩ := exists_of_mem_names splits named
  obtain ⟨file, listed, same⟩ := List.mem_map.1 named
  obtain ⟨content, -, noNull, there⟩ := status_of_split splits written file listed
  rw [same] at noNull there
  refine ⟨[t ++ sourceExtension], rfl, ?_, View.endsIn_iff.2 ⟨[], _, rfl, fits t⟩, noNull, content,
    there⟩
  simpa using (ne_parentName_of_split splits named).symm

end Action

end JavaUnits
