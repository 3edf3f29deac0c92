import JavaUnits.Proofs.Outcome
import JavaUnits.Storage.View

/-!
Where paths lead. A path that can be followed leads to the place that its parts name when every
double dot is taken back with the part before it, whatever is stored. So the place of a path is
known before anything is looked up.
-/

namespace JavaUnits

namespace Path

/-- The first `n` steps of the way to a path. -/
def front (p : Path) (n : Nat) : Path :=
  ⟨p.slashes, p.parts.take n⟩

def below (p : Path) (down : Location) : Path :=
  ⟨p.slashes, p.parts ++ down⟩

/-- The place to which a path leads, as far as no file is in the way. -/
def place (p : Path) : Location :=
  p.normal.parts

theorem normalParts_append (done parts more : List Text) :
    normalParts done (parts ++ more) = normalParts (normalParts done parts).reverse more := by
  induction parts generalizing done with
  | nil => simp [normalParts]
  | cons part parts ih =>
    rw [List.cons_append, normalParts, normalParts]
    split
    · exact ih _
    · exact ih _

theorem normalParts_of_notMem {done parts : List Text} (none : parentName ∉ parts) :
    normalParts done parts = done.reverse ++ parts := by
  induction parts generalizing done with
  | nil => simp [normalParts]
  | cons part parts ih =>
    rw [List.mem_cons, not_or] at none
    rw [normalParts, if_neg (Ne.symm none.1), ih none.2]
    simp

theorem parentName_notMem_normalParts {done parts : List Text} (none : parentName ∉ done) :
    parentName ∉ normalParts done parts := by
  induction parts generalizing done with
  | nil => simpa [normalParts] using none
  | cons part parts ih =>
    rw [normalParts]
    split
    · exact ih fun mem => none (List.mem_of_mem_drop mem)
    · rename_i other
      refine ih ?_
      rw [List.mem_cons, not_or]
      exact ⟨Ne.symm other, none⟩

theorem parentName_notMem_place (p : Path) : parentName ∉ p.place :=
  parentName_notMem_normalParts List.not_mem_nil

theorem place_append (slashes slashes' : Nat) (parts more : List Text) :
    place ⟨slashes, parts ++ more⟩ = normalParts (place ⟨slashes', parts⟩).reverse more :=
  normalParts_append [] parts more

theorem place_below {down : Location} (none : parentName ∉ down) (p : Path) :
    (p.below down).place = p.place ++ down := by
  rw [below, place_append p.slashes p.slashes, normalParts_of_notMem none, List.reverse_reverse]

theorem place_child {name : Text} (other : name ≠ parentName) (p : Path) :
    (p.child name).place = p.place ++ [name] :=
  place_below (by simpa using other.symm) p

theorem below_nil (p : Path) : p.below [] = p := by
  rw [below, List.append_nil]

theorem child_below (p : Path) (name : Text) (down : Location) :
    (p.child name).below down = p.below (name :: down) := by
  rw [below, child, List.append_assoc, List.singleton_append, below]

theorem below_child (p : Path) (down : Location) (name : Text) :
    (p.below down).child name = p.below (down ++ [name]) := by
  rw [child, below, List.append_assoc, below]

theorem front_parent (p : Path) (n : Nat) :
    p.parent.front n = p.front (min n (p.parts.length - 1)) := by
  rw [parent, front, front, List.dropLast_eq_take, List.take_take]

theorem front_length (p : Path) : p.front p.parts.length = p := by
  rw [front, List.take_length]

end Path

namespace Storage

variable {p : Path} {s : Storage} {l m : Location}

theorem heed_eq_ok {denial? : Option Denial} : heed denial? = .ok () ↔ denial? = none := by
  cases denial? <;> simp [heed]

theorem enter_eq_ok :
    s.enter l = .ok () ↔ s.get? l = some .directory ∧ (s.limitsAt l).passing = none := by
  rw [enter]
  rcases s.get? l with _ | _ | content <;> simp [heed_eq_ok]

theorem walk_cons_eq_ok {part : Text} {parts : List Text} :
    s.walk l (part :: parts) = .ok m ↔ s.enter l = .ok () ∧
      if part = Path.parentName then s.walk l.dropLast parts = .ok m
      else isTooLong part = false ∧ s.walk (l ++ [part]) parts = .ok m := by
  rw [walk]
  cases s.enter l with
  | error cause => simp
  | ok _ =>
    simp only [true_and]
    split
    · exact Iff.rfl
    · cases isTooLong part <;> simp

theorem walk_eq {parts : List Text} (walked : s.walk l parts = .ok m) :
    m = Path.normalParts l.reverse parts := by
  induction parts generalizing l with
  | nil =>
    obtain rfl := Except.ok.inj walked
    simp [Path.normalParts]
  | cons part parts ih =>
    have later := (walk_cons_eq_ok.1 walked).2
    rw [Path.normalParts]
    by_cases up : part = Path.parentName
    · rw [if_pos up] at later ⊢
      rw [ih later, ← List.tail_reverse, List.drop_one]
    · rw [if_neg up] at later ⊢
      rw [ih later.2]
      simp

theorem locate_eq_place (found : s.locate p = .ok l) : l = p.place := by
  rw [locate] at found
  split at found
  · cases found
  · exact walk_eq found

theorem walk_append (l : Location) (parts more : List Text) :
    s.walk l (parts ++ more) = s.walk l parts >>= fun m => s.walk m more := by
  induction parts generalizing l with
  | nil => rfl
  | cons part parts ih =>
    rw [List.cons_append, walk, walk]
    cases s.enter l with
    | error cause => rfl
    | ok _ =>
      simp only
      split
      · exact ih _
      · split
        · rfl
        · exact ih _

theorem get?_of_walk_cons {part : Text} {parts : List Text}
    (walked : s.walk l (part :: parts) = .ok m) : s.get? l = some .directory :=
  (enter_eq_ok.1 (walk_cons_eq_ok.1 walked).1).1

theorem locate_eq_ok : s.locate p = .ok l ↔
    Text.Utf8.size p.toText < pathLimit ∧ s.walk [] p.parts = .ok l := by
  rw [locate]
  split
  · rename_i long
    simp [Nat.not_lt.2 long]
  · rename_i short
    simp [Nat.lt_of_not_le short]

theorem status_eq_some {e : Entry} :
    s.status p = .ok (some e) ↔ s.locate p = .ok p.place ∧ s.get? p.place = some e := by
  rw [status]
  cases found : s.locate p with
  | error cause => cases absent : cause.isAbsence <;> simp [absent]
  | ok l => simp [locate_eq_place found]

theorem list_eq_ok {found : List (Text × Entry)} : s.list p = .ok found ↔
    s.status p = .ok (some .directory) ∧ (s.limitsAt p.place).listing = none ∧
      found = s.children p.place := by
  rw [status_eq_some, list]
  cases located : s.locate p with
  | error cause => simp
  | ok l =>
    obtain rfl := locate_eq_place located
    rw [ok_bind]
    rcases s.get? p.place with _ | _ | content
    · simp [throw, throwThe, MonadExceptOf.throw]
    · cases (s.limitsAt p.place).listing <;> simp [heed, pure_eq_ok, eq_comm]
    · simp [throw, throwThe, MonadExceptOf.throw]

theorem read_eq_ok {content : Bytes} : s.read p = .ok content ↔
    s.status p = .ok (some (.file content)) ∧ (s.limitsAt p.place).reading = none := by
  rw [status_eq_some, read]
  cases located : s.locate p with
  | error cause => simp
  | ok l =>
    obtain rfl := locate_eq_place located
    rw [ok_bind]
    rcases s.get? p.place with _ | _ | content'
    · simp [throw, throwThe, MonadExceptOf.throw]
    · simp [throw, throwThe, MonadExceptOf.throw]
    · cases (s.limitsAt p.place).reading <;> simp [heed, pure_eq_ok]

theorem writable_eq_ok : s.writable p = .ok l ↔
    s.locate p = .ok l ∧ s.get? l ≠ some .directory ∧ (s.limitsAt l).writing = none := by
  rw [writable]
  cases located : s.locate p with
  | error cause => simp
  | ok m =>
    rw [ok_bind, Except.ok.injEq]
    constructor
    · intro found
      split at found
      · cases found
      · rename_i other
        obtain ⟨_, allowed, same⟩ := bind_eq_ok.1 found
        obtain rfl := Except.ok.inj same
        exact ⟨rfl, by simpa [isDirectoryAt] using other, heed_eq_ok.1 allowed⟩
    · rintro ⟨rfl, other, allowed⟩
      rw [if_neg (by simpa [isDirectoryAt] using other), allowed]
      rfl

theorem get?_front_of_status (there : s.status p = .ok (some .directory)) (n : Nat) :
    s.get? (p.front n).place = some .directory := by
  obtain ⟨found, isDirectory⟩ := status_eq_some.1 there
  have walked := (locate_eq_ok.1 found).2
  rw [← List.take_append_drop n p.parts, walk_append, bind_eq_ok] at walked
  obtain ⟨m, here, on⟩ := walked
  have place : m = (p.front n).place := walk_eq here
  cases rest : p.parts.drop n with
  | nil =>
    rw [rest] at on
    rw [← place, show m = p.place from Except.ok.inj on, isDirectory]
  | cons part parts =>
    rw [rest] at on
    rw [← place, get?_of_walk_cons on]

end Storage

end JavaUnits
