import JavaUnits.CodePoint.Blank

/-!
Text as a list of code points: breaking it into lines and joining them, cutting out slices,
stripping blanks, and the order by code points. Lines joined again give the text, and so do slices
that meet.
-/

namespace JavaUnits

abbrev Text := List CodePoint

namespace Text

def ofString (s : String) : Text :=
  s.toList.map CodePoint.ofChar

instance : Coe String Text := ⟨ofString⟩

/-- Rewriting with this turns a literal into the list of its code points, from which closed texts
are evaluated sooner than from the bytes of the literal. -/
theorem ofString_ofList (cs : List Char) :
    ofString (String.ofList cs) = cs.map CodePoint.ofChar := by
  rw [ofString, String.toList_ofList]

def ofNat (n : Nat) : Text :=
  ofString (toString n)

def ofInt (n : Int) : Text :=
  ofString (toString n)

/-- The parts between the separators; there is one more of them than there are separators. -/
def splitOn (separator : CodePoint) (s : Text) : List Text :=
  let parts := s.foldr
    (fun c (part, parts) => if c = separator then ([], part :: parts) else (c :: part, parts))
    (([] : Text), ([] : List Text))
  parts.1 :: parts.2

@[simp] theorem splitOn_nil (separator : CodePoint) : splitOn separator [] = [[]] := rfl

theorem splitOn_cons (separator c : CodePoint) (s : Text) :
    splitOn separator (c :: s) =
      if c = separator then [] :: splitOn separator s
      else (c :: (splitOn separator s).head?.getD []) :: (splitOn separator s).tail := by
  by_cases h : c = separator <;> simp [splitOn, h]

theorem splitOn_ne_nil (separator : CodePoint) (s : Text) : splitOn separator s ≠ [] := by
  simp [splitOn]

theorem splitOn_append_of_notMem {separator : CodePoint} {front : Text} (none : separator ∉ front)
    (s : Text) : splitOn separator (front ++ s) =
      (front ++ (splitOn separator s).head?.getD []) :: (splitOn separator s).tail := by
  induction front with
  | nil =>
    match splitOn separator s, splitOn_ne_nil separator s with
    | part :: later, _ => simp
  | cons c front ih =>
    rw [List.mem_cons, not_or] at none
    rw [List.cons_append, splitOn_cons, if_neg (Ne.symm none.1), ih none.2]
    rfl

theorem splitOn_of_notMem {separator : CodePoint} {s : Text} (none : separator ∉ s) :
    splitOn separator s = [s] := by
  have := splitOn_append_of_notMem none []
  simpa using this

theorem notMem_of_mem_splitOn {separator : CodePoint} {s part : Text}
    (mem : part ∈ splitOn separator s) : separator ∉ part := by
  induction s generalizing part with
  | nil =>
    obtain rfl : part = [] := by simpa using mem
    simp
  | cons c s ih =>
    rw [splitOn_cons] at mem
    split at mem
    · rcases List.mem_cons.1 mem with rfl | later
      · simp
      · exact ih later
    · rename_i other
      match parts : splitOn separator s, splitOn_ne_nil separator s with
      | first :: rest, _ =>
        rw [parts] at ih mem
        rcases List.mem_cons.1 mem with rfl | later
        · simpa [Ne.symm other] using ih List.mem_cons_self
        · exact ih (List.mem_cons_of_mem _ later)

def lines (s : Text) : List Text :=
  s.splitOn '\n'

def join (separator : Text) (parts : List Text) : Text :=
  (parts.intersperse separator).flatten

theorem join_cons_cons (separator part next : Text) (parts : List Text) :
    join separator (part :: next :: parts)
      = part ++ separator ++ join separator (next :: parts) := by
  simp [join]

theorem join_splitOn (separator : CodePoint) (s : Text) :
    join [separator] (splitOn separator s) = s := by
  induction s with
  | nil => rfl
  | cons c s ih =>
    rw [splitOn_cons]
    match parts : splitOn separator s, splitOn_ne_nil separator s with
    | part :: later, _ =>
      rw [parts] at ih
      by_cases same : c = separator
      · simpa [join, same] using ih
      · cases later <;> simpa [join, same] using ih

def ofLines (ls : List Text) : Text :=
  join "\n" ls

@[simp] theorem ofLines_lines (s : Text) : ofLines s.lines = s :=
  join_splitOn _ s

/-- The code points from `start` up to `stop`, as far as there are any. -/
def slice (s : Text) (start stop : Nat) : Text :=
  (s.take stop).drop start

theorem slice_append {s : Text} {start middle stop : Nat} (before : start ≤ middle)
    (after : middle ≤ stop) : s.slice start middle ++ s.slice middle stop = s.slice start stop := by
  have cut : (s.take stop).drop start
      = ((s.take stop).take middle ++ (s.take stop).drop middle).drop start := by
    rw [List.take_append_drop]
  rw [slice, slice, slice, cut, List.drop_append, List.take_take, Nat.min_eq_left after]
  congr 1
  rw [List.length_take]
  by_cases inside : middle ≤ s.length
  · rw [Nat.min_eq_left inside, Nat.sub_eq_zero_of_le before, List.drop_zero]
  · have nothing : (s.take stop).drop middle = [] := by
      apply List.drop_eq_nil_of_le
      rw [List.length_take]
      omega
    rw [nothing, List.drop_nil]

def startsWith (s front : Text) : Bool :=
  front.isPrefixOf s

def endsWith (s back : Text) : Bool :=
  back.isSuffixOf s

/-- What is left of a list when all elements at either end that satisfy `p` are taken away. -/
def trimBy {α : Type} (p : α → Bool) (l : List α) : List α :=
  ((l.dropWhile p).reverse.dropWhile p).reverse

def stripRight (s : Text) : Text :=
  (s.reverse.dropWhile CodePoint.isBlank).reverse

def strip (s : Text) : Text :=
  trimBy CodePoint.isBlank s

def isBlank (s : Text) : Bool :=
  s.all CodePoint.isBlank

def trimBlankLines (ls : List Text) : List Text :=
  trimBy isBlank ls

/-- A carriage return and the line feed after it count as one line feed. -/
def mergeBreaks : Text → Text
  | [] => []
  | [c] => [c]
  | c :: d :: rest =>
    if c = '\r' ∧ d = '\n' then d :: mergeBreaks rest else c :: mergeBreaks (d :: rest)

def unifyBreaks (s : Text) : Text :=
  s.mergeBreaks.map fun (c : CodePoint) => if c = '\r' then '\n' else c

def lineStart (s : Text) (position : Nat) : Nat :=
  let before := s.take position
  before.length - (before.reverse.takeWhile fun c : CodePoint => c ≠ '\n').length

/-- Where `part` begins in `s`, in ascending order and with overlaps; `start` counts from before
`s`. -/
def occurrences (part : Text) : Text → Nat → List Nat
  | [], start => if part.isEmpty then [start] else []
  | c :: s, start =>
    let later := occurrences part s (start + 1)
    if part.isPrefixOf (c :: s) then start :: later else later

def lt : Text → Text → Bool
  | _, [] => false
  | [], _ :: _ => true
  | c :: s, d :: t => c.val < d.val || (c.val == d.val && lt s t)

def le (s t : Text) : Bool :=
  !lt t s

def sort (ts : List Text) : List Text :=
  ts.mergeSort le

end Text

end JavaUnits
