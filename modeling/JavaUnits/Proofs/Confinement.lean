import Mathlib.Data.List.TakeWhile
import JavaUnits.Proofs.Footprint

/-!
Workspaces keep to themselves. All files of a workspace lie below the root under names that begin
with its number, unless a double dot in the problem's name takes such a name back. So no operation
on a workspace touches what lies outside the root or belongs to a workspace with another number.
-/

namespace JavaUnits

open CodePoint

theorem CodePoint.ofChar_injective : Function.Injective ofChar := by
  intro c d same
  exact Char.ext (UInt32.ext (congrArg CodePoint.val same))

namespace Text

theorem toList_toString (n : Int) :
    (toString n).toList = if n < 0 then '-' :: Nat.toDigits 10 n.natAbs
      else Nat.toDigits 10 n.natAbs := by
  cases n with
  | ofNat n =>
    rw [if_neg (by simp)]
    exact Nat.toList_repr
  | negSucc n =>
    rw [if_pos (Int.negSucc_lt_zero n)]
    change ("-" ++ Nat.repr n.succ).toList = _
    rw [String.toList_append, Nat.toList_repr]
    rfl

theorem ofInt_injective {m n : Int} (same : ofInt m = ofInt n) : m = n := by
  have chars : (toString m).toList = (toString n).toList :=
    List.map_injective_iff.2 ofChar_injective same
  have digits (n : Nat) : '-' ∉ Nat.toDigits 10 n := by
    intro mem
    have := Nat.isDigit_of_mem_toDigits (by decide) (by decide) mem
    exact absurd this (by decide)
  have sized {k l : Nat} (alike : Nat.toDigits 10 k = Nat.toDigits 10 l) : k = l := by
    rw [← Nat.ofDigitChars_ten_toDigits (n := k), alike, Nat.ofDigitChars_ten_toDigits]
  rw [toList_toString, toList_toString] at chars
  split at chars <;> split at chars
  · have := sized (List.cons.inj chars).2
    omega
  · exact absurd (chars ▸ List.mem_cons_self) (digits _)
  · exact absurd (chars ▸ List.mem_cons_self) (digits _)
  · have := sized chars
    omega

theorem mem_ofInt {n : Int} {c : CodePoint} (mem : c ∈ ofInt n) :
    c = ofChar '-' ∨ ∃ d : Char, d.isDigit = true ∧ c = ofChar d := by
  obtain ⟨d, listed, rfl⟩ := List.mem_map.1 mem
  rw [toList_toString] at listed
  have digit {k : Nat} (mem : d ∈ Nat.toDigits 10 k) : d.isDigit = true :=
    Nat.isDigit_of_mem_toDigits (by decide) (by decide) mem
  split at listed
  · rcases List.mem_cons.1 listed with rfl | later
    · exact .inl rfl
    · exact .inr ⟨d, digit later, rfl⟩
  · exact .inr ⟨d, digit listed, rfl⟩

end Text

namespace Path

open Text

theorem splitName_cases (p : Path) :
    p.splitName = (p.name, []) ∨ ∃ stem extension, p.splitName = (stem, ofChar '.' :: extension) ∧
      p.name = stem ++ ofChar '.' :: extension ∧ stem ≠ [] ∧ ofChar '.' ∉ extension := by
  rw [splitName]
  generalize taken : p.name.reverse.takeWhile (fun c : CodePoint => decide (c ≠ ofChar '.')) = back
  rw [List.length_reverse]
  split
  · exact .inl rfl
  · rename_i marked
    simp only [Bool.or_eq_true, not_or, List.isEmpty_iff, beq_iff_eq] at marked
    obtain ⟨⟨-, stemmed⟩, short⟩ := marked
    have noDot : ofChar '.' ∉ back := by
      intro mem
      rw [← taken] at mem
      simpa using List.mem_takeWhile_imp mem
    have parts := List.takeWhile_append_dropWhile
      (p := fun c : CodePoint => decide (c ≠ ofChar '.'))
      (l := p.name.reverse)
    rw [taken] at parts
    cases rest : p.name.reverse.dropWhile fun c : CodePoint => decide (c ≠ ofChar '.') with
    | nil =>
      rw [rest, List.append_nil] at parts
      rw [parts, List.length_reverse] at short
      exact absurd rfl short
    | cons c front =>
      have stops := List.head?_dropWhile_not
        (fun c : CodePoint => decide (c ≠ ofChar '.')) p.name.reverse
      rw [rest] at stops parts
      obtain rfl : c = ofChar '.' := by simpa using stops
      have whole : p.name = front.reverse ++ ofChar '.' :: back.reverse := by
        simpa using (congrArg List.reverse parts).symm
      have stem : p.name.take (p.name.length - back.length - 1) = front.reverse := by
        have length : p.name.length - back.length - 1 = front.reverse.length := by
          rw [whole, List.length_append, List.length_cons, List.length_reverse, List.length_reverse]
          omega
        rw [length, whole, List.take_left]
      rw [stem] at stemmed ⊢
      exact .inr ⟨_, _, rfl, whole, stemmed, by simpa using noDot⟩

theorem name_eq_stem_append (p : Path) : p.name = p.stem ++ p.suffix := by
  rcases p.splitName_cases with same | ⟨front, back, parts, whole, -⟩
  · simp [stem, suffix, same]
  · simp [stem, suffix, parts, whole]

theorem partsOf_of_notMem {s : Text} (none : ofChar '/' ∉ s) :
    partsOf s = if s = [] ∨ s = ofString "." then [] else [s] := by
  rw [partsOf, splitOn_of_notMem none]
  by_cases empty : s = []
  · simp [empty]
  · by_cases dot : s = ofString "."
    · simp [dot]
    · simp [empty, dot]

theorem notMem_of_mem_partsOf {s part : Text} (mem : part ∈ partsOf s) :
    ofChar '/' ∉ part ∧ part ≠ [] ∧ part ≠ ofString "." := by
  obtain ⟨listed, kept⟩ := List.mem_filter.1 mem
  exact ⟨notMem_of_mem_splitOn listed, by simpa using kept⟩

theorem ofText_of_head {s : Text} (head : s.head? ≠ some (ofChar '/')) :
    ofText s = ⟨0, partsOf s⟩ := by
  have none : (s.takeWhile fun c : CodePoint => decide (c = ofChar '/')) = [] := by
    cases s with
    | nil => rfl
    | cons c s => exact List.takeWhile_cons_of_neg (by simpa using head)
  simp [ofText, none]

theorem append_of_head (p : Path) {s : Text} (head : s.head? ≠ some (ofChar '/')) :
    p ++ ofText s = ⟨p.slashes, p.parts ++ partsOf s⟩ := by
  rw [ofText_of_head head]
  rfl

/-- Whether no double dot among the parts takes back the first of `depth` names in front of them and
all of them, the first of which stays. -/
def staysBelow (depth : Nat) : List Text → Bool
  | [] => true
  | part :: parts =>
    if part = parentName then 1 < depth && staysBelow (depth - 1) parts
    else staysBelow (depth + 1) parts

theorem staysBelow_take {depth : Nat} {parts : List Text} (stays : staysBelow depth parts = true)
    (n : Nat) : staysBelow depth (parts.take n) = true := by
  induction parts generalizing depth n with
  | nil => simpa using stays
  | cons part parts ih =>
    cases n with
    | zero => rfl
    | succ n =>
      rw [staysBelow] at stays
      rw [List.take_succ_cons, staysBelow]
      split at stays
      · rename_i up
        rw [Bool.and_eq_true] at stays
        rw [if_pos up, stays.1, Bool.true_and]
        exact ih stays.2 n
      · rename_i down
        rw [if_neg down]
        exact ih stays n

theorem exists_of_staysBelow {names base parts : List Text} {first : Text}
    (stays : staysBelow (names.length + 1) parts = true) :
    ∃ rest, normalParts (names ++ first :: base) parts = base.reverse ++ first :: rest := by
  induction parts generalizing names with
  | nil => exact ⟨names.reverse, by simp [normalParts]⟩
  | cons part parts ih =>
    rw [staysBelow] at stays
    rw [normalParts]
    split at stays
    · rename_i up
      rw [Bool.and_eq_true, decide_eq_true_eq] at stays
      rw [if_pos up]
      cases names with
      | nil => simp at stays
      | cons name names => exact ih stays.2
    · rename_i down
      rw [if_neg down]
      exact @ih (part :: names) stays

end Path

namespace Workspace

open Text Path

variable {w : Workspace}

/-- What the name begins with that a workspace's files have in the root directory. -/
def mark (w : Workspace) : Text :=
  ofInt w.problemId ++ ofString "_"

theorem notMem_mark {c : Char} (noSign : c ≠ '-') (noDigit : c.isDigit = false) (noLine : c ≠ '_')
    (w : Workspace) : ofChar c ∉ w.mark := by
  rw [mark, List.mem_append, not_or]
  refine ⟨fun mem => ?_, fun mem => ?_⟩
  · rcases mem_ofInt mem with same | ⟨d, digit, same⟩
    · exact noSign (ofChar_injective same)
    · rw [← ofChar_injective same, noDigit] at digit
      cases digit
  · exact noLine (ofChar_injective (by simpa [ofString] using mem))

theorem problemId_of_mark {v : Workspace} {name : Text} (marked : w.mark <+: name)
    (alike : v.mark <+: name) : w.problemId = v.problemId := by
  have front {u : Workspace} (marked : u.mark <+: name) :
      name.takeWhile (fun c : CodePoint => decide (c ≠ ofChar '_')) = ofInt u.problemId := by
    obtain ⟨back, rfl⟩ := marked
    rw [mark, List.append_assoc, List.takeWhile_append_of_pos]
    · simp [ofString]
    · intro c mem
      rcases mem_ofInt mem with rfl | ⟨d, digit, rfl⟩
      · decide
      · rw [decide_eq_true_eq]
        intro same
        obtain rfl := ofChar_injective same
        exact absurd digit (by decide)
  exact ofInt_injective ((front marked).symm.trans (front alike))

theorem partsOf_mark (w : Workspace) (text : Text) :
    ∃ first rest, partsOf (w.mark ++ text) = first :: rest ∧ w.mark <+: first := by
  have noSlash := notMem_mark (c := '/') (by decide) (by decide) (by decide) w
  rw [partsOf, splitOn_append_of_notMem noSlash]
  generalize (splitOn (ofChar '/') text).head?.getD [] = back
  have line : ofChar '_' ∈ w.mark ++ back := by simp [mark, ofString]
  rw [List.filter_cons_of_pos]
  · exact ⟨_, _, rfl, List.prefix_append _ _⟩
  · rw [Bool.and_eq_true, Bool.not_eq_true', List.isEmpty_eq_false_iff, bne_iff_ne]
    constructor
    · intro none
      rw [none] at line
      cases line
    · intro dot
      rw [dot] at line
      exact absurd line (by decide)

theorem path_eq (w : Workspace) : ∃ first rest,
    w.path = ⟨w.root.slashes, w.root.parts ++ first :: rest⟩ ∧ w.mark <+: first ∧
      ∀ part ∈ first :: rest, ofChar '/' ∉ part := by
  have whole (text : Text) : ∃ first rest,
      w.root ++ ofText (w.mark ++ text) = ⟨w.root.slashes, w.root.parts ++ first :: rest⟩ ∧
        w.mark <+: first ∧ ∀ part ∈ first :: rest, ofChar '/' ∉ part := by
    obtain ⟨first, rest, parts, marked⟩ := w.partsOf_mark text
    refine ⟨first, rest, ?_, marked, fun part mem => ?_⟩
    · rw [append_of_head, parts]
      intro slash
      have noSlash := notMem_mark (c := '/') (by decide) (by decide) (by decide) w
      cases front : w.mark with
      | nil => simp [mark, ofString] at front
      | cons c front' =>
        rw [front] at slash noSlash
        simp only [List.cons_append, List.head?_cons, Option.some.injEq] at slash
        exact noSlash (slash ▸ List.mem_cons_self)
    · rw [← parts] at mem
      exact (notMem_of_mem_partsOf mem).1
  have named : w.path = w.root ++ ofText (w.mark
      ++ ((w.problemName.strip.map fun c : CodePoint => if c = ofChar ' ' then ofChar '_' else c)
        ++ if w.extension.isEmpty then ofString ".tmp" else w.extension)) := by
    rw [path, mark, ← List.append_assoc]
  rw [named]
  exact whole _

/-- The part of a marked name before its last dot is marked, since no mark has a dot. -/
theorem mark_stem (marked : w.mark <+: w.path.name) : w.mark <+: w.path.stem := by
  have noDot := notMem_mark (c := '.') (by decide) (by decide) (by decide) w
  rcases w.path.splitName_cases with same | ⟨front, back, parts, whole, -⟩
  · rwa [stem, same]
  · rw [stem, parts]
    rw [whole] at marked
    rcases List.append_eq_append_iff.1 marked.choose_spec with ⟨more, same, -⟩ | ⟨more, same, dot⟩
    · exact ⟨more, same.symm⟩
    · cases more with
      | nil => exact ⟨[], by simpa using same⟩
      | cons c more =>
        obtain rfl : c = ofChar '.' := (List.cons.inj dot).1.symm
        rw [same] at noDot
        simp at noDot

theorem name_mem_path (w : Workspace) : ∃ first rest,
    w.path = ⟨w.root.slashes, w.root.parts ++ first :: rest⟩ ∧ w.mark <+: first ∧
      w.path.name ∈ first :: rest ∧ ofChar '/' ∉ w.path.stem := by
  obtain ⟨first, rest, same, marked, noSlash⟩ := w.path_eq
  have last : w.path.name ∈ first :: rest := by
    rw [name, same, List.getLast?_append_cons, List.getLast?_eq_some_getLast (by simp)]
    exact List.getLast_mem _
  refine ⟨first, rest, same, marked, last, fun mem => noSlash _ last ?_⟩
  rw [name_eq_stem_append]
  exact List.mem_append_left _ mem

theorem splitDirectory_parts (w : Workspace) :
    w.splitDirectory = ⟨w.path.slashes, w.path.parts.dropLast ++ partsOf w.path.stem⟩ := by
  obtain ⟨-, -, -, -, -, noSlash⟩ := w.name_mem_path
  rw [splitDirectory, Path.splitDirectory, append_of_head, parent]
  exact fun slash => noSlash (List.mem_of_mem_head? slash)

theorem splitDirectory_eq (w : Workspace) : ∃ first rest,
    w.splitDirectory = ⟨w.root.slashes, w.root.parts ++ first :: rest⟩ ∧ w.mark <+: first := by
  obtain ⟨first, rest, same, marked, last, -⟩ := w.name_mem_path
  have relative : w.splitDirectory
      = ⟨w.root.slashes, w.root.parts ++ (first :: rest).dropLast ++ partsOf w.path.stem⟩ := by
    rw [splitDirectory_parts, same, List.dropLast_append_cons]
  cases rest with
  | nil =>
    have named : w.path.name = first := by simpa using last
    have stemMarked := mark_stem (named.symm ▸ marked)
    obtain ⟨back, stem⟩ := stemMarked
    obtain ⟨first', rest', parts, marked'⟩ := w.partsOf_mark back
    exact ⟨first', rest', by rw [relative, ← stem, parts]; simp, marked'⟩
  | cons part rest =>
    exact ⟨first, (part :: rest).dropLast ++ partsOf w.path.stem, by rw [relative]; simp, marked⟩

/-! ## The places of a workspace -/

/-- Whether no double dot takes back the name under which the workspace lies in the root. -/
def StaysBelow (w : Workspace) : Prop :=
  staysBelow 0 (w.path.parts.drop w.root.parts.length) = true ∧
    staysBelow 0 (w.splitDirectory.parts.drop w.root.parts.length) = true

instance (w : Workspace) : Decidable w.StaysBelow :=
  inferInstanceAs (Decidable (_ ∧ _))

/-- Whether a place lies in the root under a name that begins with the workspace's number. -/
def Owns (w : Workspace) (l : Location) : Prop :=
  ∃ name rest, l = w.root.place ++ name :: rest ∧ w.mark <+: name

/-- Whether a place is passed on the way to the root. -/
def Passes (w : Workspace) (l : Location) : Prop :=
  ∃ n, l = (w.root.front n).place

/-- Whether the place is that of the submission, or belongs to the directory of its split files. -/
def Holds (w : Workspace) (l : Location) : Prop :=
  l = w.path.place ∨ w.splitDirectory.place <+: l

theorem Owns.append {l : Location} (mine : w.Owns l) (more : Location) : w.Owns (l ++ more) := by
  obtain ⟨name, rest, rfl, marked⟩ := mine
  exact ⟨name, rest ++ more, by simp, marked⟩

theorem Owns.below {l m : Location} (mine : w.Owns l) (below : l <+: m) : w.Owns m := by
  obtain ⟨more, rfl⟩ := below
  exact mine.append more

section

variable {p : Path} {first : Text} {rest : List Text}
  (same : p = ⟨w.root.slashes, w.root.parts ++ first :: rest⟩)
include same

theorem passes_front {n : Nat} (outside : n ≤ w.root.parts.length) :
    w.Passes (p.front n).place := by
  refine ⟨n, ?_⟩
  rw [same, front, List.take_append_of_le_length outside]
  rfl

variable (marked : w.mark <+: first)
  (stays : staysBelow 0 (p.parts.drop w.root.parts.length) = true)
include marked stays

theorem owns_front {n : Nat} (inside : w.root.parts.length < n) : w.Owns (p.front n).place := by
  rw [same, List.drop_left, staysBelow] at stays
  have other : first ≠ parentName := by
    rintro rfl
    have line : ofChar '_' ∈ parentName := marked.subset (by simp [mark, ofString])
    exact absurd line (by decide)
  rw [if_neg other] at stays
  obtain ⟨k, more⟩ : ∃ k, n - w.root.parts.length = k + 1 :=
    ⟨n - w.root.parts.length - 1, by omega⟩
  rw [same, front, List.take_append, more, List.take_succ_cons, List.take_of_length_le (by omega),
    place_append _ w.root.slashes, normalParts, if_neg other]
  obtain ⟨below, ends⟩ := @exists_of_staysBelow [] w.root.place.reverse _ first
    (staysBelow_take stays k)
  rw [List.nil_append, List.reverse_reverse] at ends
  exact ⟨first, below, ends, marked⟩

theorem owns_or_passes (n : Nat) : w.Owns (p.front n).place ∨ w.Passes (p.front n).place := by
  by_cases outside : n ≤ w.root.parts.length
  · exact .inr (passes_front same outside)
  · exact .inl (owns_front same marked stays (by omega))

theorem owns_place : w.Owns p.place := by
  have := owns_front same marked stays (n := p.parts.length) (by simp [same])
  rwa [front_length] at this

end

section

variable (stays : w.StaysBelow)
include stays

theorem StaysBelow.owns_path : w.Owns w.path.place := by
  obtain ⟨first, rest, same, marked, -⟩ := w.path_eq
  exact owns_place same marked stays.1

theorem StaysBelow.owns_parent (n : Nat) :
    w.Owns (w.path.parent.front n).place ∨ w.Passes (w.path.parent.front n).place := by
  obtain ⟨first, rest, same, marked, -⟩ := w.path_eq
  rw [front_parent]
  exact owns_or_passes same marked stays.1 _

theorem StaysBelow.owns_splitDirectory : w.Owns w.splitDirectory.place := by
  obtain ⟨first, rest, same, marked⟩ := w.splitDirectory_eq
  exact owns_place same marked stays.2

theorem StaysBelow.owns_splitFront (n : Nat) :
    w.Owns (w.splitDirectory.front n).place ∨ w.Passes (w.splitDirectory.front n).place := by
  obtain ⟨first, rest, same, marked⟩ := w.splitDirectory_eq
  exact owns_or_passes same marked stays.2 n

theorem StaysBelow.owns_of_holds {l : Location} (held : w.Holds l) : w.Owns l := by
  rcases held with rfl | below
  · exact stays.owns_path
  · exact stays.owns_splitDirectory.below below

end

/-- No place belongs to two workspaces of one root that have different numbers. -/
theorem Owns.problemId_eq {v : Workspace} {l : Location} (mine : w.Owns l) (other : v.Owns l)
    (root : v.root = w.root) : v.problemId = w.problemId := by
  obtain ⟨name, rest, same, marked⟩ := mine
  obtain ⟨name', rest', same', marked'⟩ := other
  rw [same, root, List.append_cancel_left_eq, List.cons.injEq] at same'
  rw [same'.1] at marked
  exact problemId_of_mark marked' marked

open Action Storage

/-- No operation leaves the places of the workspace. -/
theorem StaysBelow.changesOnly_run (stays : w.StaysBelow) (op : Operation) :
    (op.run w).ChangesOnly w.Owns w.Passes := by
  have below (l : Location) (below : w.splitDirectory.place <+: l) : w.Owns l :=
    stays.owns_splitDirectory.below below
  refine keeps_run staysWithin_refl (@StaysWithin.trans w.Owns w.Passes)
    (changesOnly_makeDirectories stays.owns_parent)
    (fun s _ _ => staysWithin_put stays.owns_path s _)
    (changesOnly_makeDirectories stays.owns_splitFront) (fun name other s _ _ => ?_)
    (changesOnly_removeTree below) op
  refine staysWithin_put ?_ s _
  rw [Path.place_child other]
  exact below _ (List.prefix_append _ _)

/-- An operation changes only what lies in the root under the workspace's own number, directories
apart that it makes on the way to a root that is missing. When the root is there, it changes nothing
of another workspace. -/
theorem run_confined (stays : w.StaysBelow) (op : Operation) (s : Storage) :
    (∀ l, ((op.run w).run.run s).2.get? l ≠ s.get? l → w.Owns l ∨
      s.get? l = none ∧ ((op.run w).run.run s).2.get? l = some .directory ∧ w.Passes l) ∧
    (s.status w.root = .ok (some .directory) →
      (∀ l, ((op.run w).run.run s).2.get? l ≠ s.get? l → w.Owns l) ∧
      ∀ v : Workspace, v.root = w.root → v.problemId ≠ w.problemId → v.StaysBelow →
        ∀ l, v.Holds l → ((op.run w).run.run s).2.get? l = s.get? l) := by
  have all (l : Location) (changed : ((op.run w).run.run s).2.get? l ≠ s.get? l) : w.Owns l ∨
      s.get? l = none ∧ ((op.run w).run.run s).2.get? l = some .directory ∧ w.Passes l :=
    (stays.changesOnly_run op s l).resolve_left changed
  refine ⟨all, fun there => ?_⟩
  have own (l : Location) (changed : ((op.run w).run.run s).2.get? l ≠ s.get? l) : w.Owns l := by
    rcases all l changed with mine | ⟨none, -, n, rfl⟩
    · exact mine
    · rw [Storage.get?_front_of_status there n] at none
      cases none
  refine ⟨own, fun v root number vStays l held => ?_⟩
  by_contra changed
  exact number ((own l changed).problemId_eq (vStays.owns_of_holds held) root)

/-- A root with the submission of the second problem and one split file of it. -/
def shelf : Storage :=
  { entries := [(["r"], .directory), (["r", "2_x.java"], .file [1]), (["r", "2_x"], .directory),
      (["r", "2_x", "A.java"], .file [2])] }

def second : Workspace :=
  ⟨"/r", 2, "x", ".java", []⟩

/-- A double dot that takes back a name behind the first one does no harm. -/
def winding : Workspace :=
  ⟨"/r", -2, "x/y/../z z", ".java", "class A {}"⟩

theorem run_confined_winding :
    winding.StaysBelow ∧ second.StaysBelow ∧ shelf.status winding.root = .ok (some .directory) ∧
      ((Operation.run winding (.openForEditing true)).run.run shelf).2.get? ["r", "2_x", "A.java"]
        = some (.file [2]) := by
  have stays : winding.StaysBelow := by decide
  have there : shelf.status winding.root = .ok (some .directory) := by decide
  refine ⟨stays, by decide, there, ?_⟩
  rw [((run_confined stays (.openForEditing true) shelf).2 there).2 second rfl (by decide)
    (by decide) _ (.inr (by decide))]
  decide

/-- The first name is taken back, and another follows. -/
def intruder : Workspace :=
  ⟨"/r", 1, "/../2_x", ".java", "class A {}"⟩

/-- What is asked of one workspace overwrites the submission of another. -/
theorem run_intruder :
    intruder.root = second.root ∧ intruder.problemId ≠ second.problemId ∧
      shelf.status intruder.root = .ok (some .directory) ∧ second.Holds ["r", "2_x.java"] ∧
      ((Operation.run intruder (.create true)).run.run shelf).2.get? ["r", "2_x.java"]
        ≠ shelf.get? ["r", "2_x.java"] := by
  refine ⟨rfl, by decide, by decide, .inl (by decide), by decide +kernel⟩

end Workspace

end JavaUnits
