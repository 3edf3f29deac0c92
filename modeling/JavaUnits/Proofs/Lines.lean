import JavaUnits.Files
import JavaUnits.Proofs.Place
import JavaUnits.Proofs.Ranges
import Mathlib.Data.List.TakeWhile

/-!
Lines put together, and what stripping takes from the ends of a text: nothing but blanks.
-/

namespace JavaUnits.Text

open CodePoint

theorem lines_ne_nil (s : Text) : s.lines ≠ [] :=
  splitOn_ne_nil _ s

theorem ofLines_cons (line : Text) {ls : List Text} (more : ls ≠ []) :
    ofLines (line :: ls) = line ++ ofChar '\n' :: ofLines ls := by
  obtain ⟨next, ls, rfl⟩ := List.exists_cons_of_ne_nil more
  simp [ofLines, join, List.intersperse, ofString]

theorem ofLines_append (xs : List Text) {ys : List Text} (more : ys ≠ []) :
    ofLines (xs ++ ys) = xs.flatMap (fun line => line ++ [ofChar '\n']) ++ ofLines ys := by
  induction xs with
  | nil => rfl
  | cons x xs ih =>
    rw [List.cons_append, ofLines_cons x (by simp [more]), ih]
    simp

theorem stripRight_split (s : Text) :
    ∃ b, s = s.stripRight ++ b ∧ (∀ c ∈ b, c.isBlank = true) ∧
      ∀ c, s.stripRight.getLast? = some c → c.isBlank = false := by
  refine ⟨(s.reverse.takeWhile CodePoint.isBlank).reverse, ?_, fun c mem => ?_, fun c last => ?_⟩
  · rw [stripRight, ← List.reverse_append, List.takeWhile_append_dropWhile, List.reverse_reverse]
  · exact List.mem_takeWhile_imp (List.mem_reverse.1 mem)
  · rw [stripRight, List.getLast?_reverse] at last
    have stops := List.head?_dropWhile_not CodePoint.isBlank s.reverse
    rw [last] at stops
    simpa using stops

theorem stripRight_append {s b : Text} (blank : ∀ c ∈ b, c.isBlank = true)
    (last : ∀ c, s.getLast? = some c → c.isBlank = false) : (s ++ b).stripRight = s := by
  rw [stripRight, List.reverse_append, List.dropWhile_append_of_pos]
  · cases front : s.reverse with
    | nil => simpa using front.symm
    | cons c rest =>
      have ends := last c (by rw [← List.head?_reverse, front]; rfl)
      rw [List.dropWhile_cons_of_neg (by simp [ends]), ← front, List.reverse_reverse]
  · exact fun c mem => blank c (List.mem_reverse.1 mem)

theorem stripRight_append_blank {b : Text} (s : Text) (blank : ∀ c ∈ b, c.isBlank = true) :
    (s ++ b).stripRight = s.stripRight := by
  rw [stripRight, List.reverse_append, List.dropWhile_append_of_pos, stripRight]
  exact fun c mem => blank c (List.mem_reverse.1 mem)

theorem flatMap_break {ls : List Text} (more : ls ≠ []) :
    (ls.flatMap fun line => line ++ [ofChar '\n']) = ofLines ls ++ [ofChar '\n'] := by
  induction ls with
  | nil => exact absurd rfl more
  | cons line ls ih =>
    cases ls with
    | nil => simp [ofLines, join]
    | cons next ls =>
      rw [List.flatMap_cons, ih (by simp), ofLines_cons line (by simp)]
      simp

theorem mem_ofLines {ls : List Text} {c : CodePoint} (mem : c ∈ ofLines ls) :
    c = ofChar '\n' ∨ ∃ line ∈ ls, c ∈ line := by
  by_cases none : ls = []
  · subst none
    simp [ofLines, join] at mem
  · have inside : c ∈ ls.flatMap fun line => line ++ [ofChar '\n'] := by
      rw [flatMap_break none]
      exact List.mem_append_left _ mem
    obtain ⟨line, isLine, here⟩ := List.mem_flatMap.1 inside
    rw [List.mem_append, List.mem_singleton] at here
    exact here.symm.imp_right fun here => ⟨line, isLine, here⟩

theorem isBlank_ofLines {ls : List Text} (blank : ∀ line ∈ ls, isBlank line = true) :
    ∀ c ∈ ofLines ls, c.isBlank = true := by
  intro c mem
  rcases mem_ofLines mem with rfl | ⟨line, isLine, mem⟩
  · decide
  · exact List.all_eq_true.1 (blank line isLine) c mem

theorem trimBy_split {α : Type} (p : α → Bool) (l : List α) :
    ∃ front back, l = front ++ (trimBy p l ++ back) ∧ (∀ x ∈ front, p x = true) ∧
      ∀ x ∈ back, p x = true := by
  refine ⟨l.takeWhile p, ((l.dropWhile p).reverse.takeWhile p).reverse, ?_,
    fun x => List.mem_takeWhile_imp, fun x mem => List.mem_takeWhile_imp (List.mem_reverse.1 mem)⟩
  rw [trimBy, ← List.reverse_append, List.takeWhile_append_dropWhile, List.reverse_reverse,
    List.takeWhile_append_dropWhile]

theorem trimBlankLines_split (s : Text) :
    ∃ front back, s = front ++ (ofLines (trimBlankLines s.lines) ++ back) ∧
      (∀ c ∈ front, c.isBlank = true) ∧ ∀ c ∈ back, c.isBlank = true := by
  obtain ⟨before, behind, whole, blankBefore, blankBehind⟩ := trimBy_split isBlank s.lines
  have text := ofLines_lines s
  rw [← trimBlankLines] at whole
  generalize trimBlankLines s.lines = middle at *
  rw [whole] at text
  have blankBreak : ∀ c ∈ before.flatMap fun line => line ++ [ofChar '\n'], c.isBlank = true := by
    intro c mem
    obtain ⟨line, inside, mem⟩ := List.mem_flatMap.1 mem
    rw [List.mem_append, List.mem_singleton] at mem
    rcases mem with mem | rfl
    · exact List.all_eq_true.1 (blankBefore line inside) c mem
    · decide
  by_cases none : middle = []
  · subst none
    refine ⟨s, [], by simp [ofLines, join], ?_, by simp⟩
    rw [← text, List.nil_append]
    apply isBlank_ofLines
    intro line mem
    rw [List.mem_append] at mem
    exact mem.elim (blankBefore line) (blankBehind line)
  · rw [ofLines_append before (by simp [none])] at text
    by_cases last : behind = []
    · subst last
      rw [List.append_nil] at text
      exact ⟨_, [], by rw [List.append_nil]; exact text.symm, blankBreak, by simp⟩
    · rw [ofLines_append middle last, flatMap_break none, List.append_assoc] at text
      refine ⟨_, _, text.symm, blankBreak, ?_⟩
      intro c mem
      rw [List.singleton_append, List.mem_cons] at mem
      rcases mem with rfl | mem
      · decide
      · exact isBlank_ofLines blankBehind c mem

theorem trimBlankLines_ne_nil {s : Text} {c : CodePoint} (mem : c ∈ s) (ink : c.isBlank = false) :
    trimBlankLines s.lines ≠ [] := by
  intro none
  obtain ⟨front, back, split, blankFront, blankBack⟩ := trimBlankLines_split s
  rw [none] at split
  rw [split] at mem
  have blank : c.isBlank = true := by
    simp only [ofLines, join, List.intersperse_nil, List.flatten_nil, List.nil_append,
      List.mem_append] at mem
    exact mem.elim (blankFront c) (blankBack c)
  rw [ink] at blank
  cases blank

/-! ## Lines that are kept -/

theorem lines_append_break (s t : Text) :
    lines (s ++ ofChar '\n' :: t) = lines s ++ lines t := by
  induction s with
  | nil => rw [List.nil_append, lines_cons_break]; rfl
  | cons c s ih =>
    by_cases isBreak : c = ofChar '\n'
    · subst isBreak
      rw [List.cons_append, lines_cons_break, lines_cons_break, ih, List.cons_append]
    · obtain ⟨line, rest, before, after⟩ := lines_cons_of_ne isBreak s
      obtain ⟨line', rest', before', after'⟩ := lines_cons_of_ne isBreak (s ++ ofChar '\n' :: t)
      rw [before', before, List.cons_append, List.cons.injEq] at ih
      rw [List.cons_append, after', after, ih.1, ih.2, List.cons_append]

theorem lines_of_noBreak {s : Text} (none : ofChar '\n' ∉ s) : lines s = [s] :=
  splitOn_of_notMem none

theorem getLast?_lines (s : Text) : (lines s).getLast? = some s.lastLine := by
  by_cases mem : ofChar '\n' ∈ s
  · obtain ⟨front, whole⟩ := eq_append_lastLine mem
    conv => lhs; rw [whole]
    rw [lines_append_break, lines_of_noBreak (break_notMem_lastLine s), List.getLast?_concat]
  · rw [lines_of_noBreak mem, lastLine_of_noBreak mem]
    rfl

theorem mem_of_mem_lines {s line : Text} (inside : line ∈ lines s) {c : CodePoint}
    (mem : c ∈ line) : c ∈ s ∧ c ≠ ofChar '\n' := by
  induction s generalizing line with
  | nil =>
    obtain rfl : line = [] := List.mem_singleton.1 inside
    cases mem
  | cons d s ih =>
    have later {line : Text} (inside : line ∈ lines s) (mem : c ∈ line) :
        c ∈ d :: s ∧ c ≠ ofChar '\n' :=
      ⟨List.mem_cons_of_mem _ (ih inside mem).1, (ih inside mem).2⟩
    by_cases isBreak : d = ofChar '\n'
    · subst isBreak
      rw [lines_cons_break] at inside
      rcases List.mem_cons.1 inside with rfl | inside
      · cases mem
      · exact later inside mem
    · obtain ⟨first, rest, before, after⟩ := lines_cons_of_ne isBreak s
      rw [after] at inside
      rcases List.mem_cons.1 inside with rfl | inside
      · rcases List.mem_cons.1 mem with rfl | mem
        · exact ⟨List.mem_cons_self, isBreak⟩
        · exact later (before ▸ List.mem_cons_self) mem
      · exact later (before ▸ List.mem_cons_of_mem _ inside) mem

theorem trimBy_append {α : Type} {p : α → Bool} {xs : List α} (all : ∀ x ∈ xs, p x = true)
    (ys : List α) : trimBy p (xs ++ ys) = trimBy p ys := by
  rw [trimBy, List.dropWhile_append_of_pos all, trimBy]

theorem trimBy_concat {α : Type} {p : α → Bool} (xs : List α) {x : α} (goes : p x = true) :
    trimBy p (xs ++ [x]) = trimBy p xs := by
  rw [trimBy, trimBy, List.dropWhile_append]
  split
  · rename_i none
    rw [List.isEmpty_iff.1 none, List.dropWhile_cons_of_pos goes]
    rfl
  · rw [List.reverse_append, List.reverse_singleton, List.singleton_append,
      List.dropWhile_cons_of_pos goes]

/-- Whole lines that are blank make no difference before a text that is trimmed. -/
theorem trimBlankLines_append_lines {gap : Text} (blank : ∀ c ∈ gap, c.isBlank = true)
    (ends : gap.lastLine = []) (s : Text) :
    trimBlankLines (lines (gap ++ s)) = trimBlankLines (lines s) := by
  by_cases mem : ofChar '\n' ∈ gap
  · obtain ⟨front, whole⟩ := eq_append_lastLine mem
    rw [ends] at whole
    have all : ∀ line ∈ lines front, isBlank line = true := fun line inside =>
      List.all_eq_true.2 fun c mem => blank c (by
        rw [whole]
        exact List.mem_append_left _ (mem_of_mem_lines inside mem).1)
    rw [whole, List.append_assoc, List.cons_append, List.nil_append, lines_append_break,
      trimBlankLines, trimBy_append all]
    rfl
  · rw [← lastLine_of_noBreak mem, ends, List.nil_append]

theorem trimBlankLines_append_break (s : Text) :
    trimBlankLines (lines (s ++ [ofChar '\n'])) = trimBlankLines (lines s) := by
  rw [lines_append_break s []]
  exact trimBy_concat _ rfl

theorem trimBy_of_head {α : Type} {p : α → Bool} {x : α} {xs : List α} (stays : p x = false) :
    trimBy p (x :: xs) ≠ [] ∧
      ∃ back, x :: xs = trimBy p (x :: xs) ++ back ∧ ∀ y ∈ back, p y = true := by
  have whole : (x :: xs).dropWhile p = x :: xs := List.dropWhile_cons_of_neg (by simp [stays])
  refine ⟨fun none => ?_, ((x :: xs).reverse.takeWhile p).reverse, ?_, fun y mem =>
    List.mem_takeWhile_imp (List.mem_reverse.1 mem)⟩
  · rw [trimBy, whole, List.reverse_eq_nil_iff, List.dropWhile_eq_nil_iff] at none
    have goes := none x (by simp)
    rw [stays] at goes
    cases goes
  · rw [trimBy, whole, ← List.reverse_append, List.takeWhile_append_dropWhile,
      List.reverse_reverse]

theorem exists_lines_cons {indent : Text} {c : CodePoint} (within : ofChar '\n' ∉ indent)
    (ink : c.isBlank = false) (s : Text) :
    ∃ line rest, lines (indent ++ c :: s) = line :: rest ∧ isBlank line = false := by
  have head := lines_head (indent ++ c :: s)
  cases parts : lines (indent ++ c :: s) with
  | nil => simp [parts] at head
  | cons line rest =>
    refine ⟨line, rest, rfl, ?_⟩
    have first : line = firstLine (indent ++ c :: s) := by simpa [parts] using head
    have other : c ≠ ofChar '\n' := by
      rintro rfl
      exact absurd ink (by decide)
    rw [first, firstLine_append_of_noBreak within, firstLine,
      List.takeWhile_cons_of_pos (by simpa using other)]
    simp [isBlank, ink]

/-- Of a text that shows something on its first line, only blanks at the end go with the blank
lines. -/
theorem trimBlankLines_eq {indent s : Text} {c : CodePoint} (within : ofChar '\n' ∉ indent)
    (ink : c.isBlank = false) :
    ∃ back, indent ++ c :: s = ofLines (trimBlankLines (lines (indent ++ c :: s))) ++ back ∧
      ∀ d ∈ back, d.isBlank = true := by
  obtain ⟨line, rest, parts, stays⟩ := exists_lines_cons within ink s
  have text := ofLines_lines (indent ++ c :: s)
  rw [trimBlankLines, parts]
  rw [parts] at text
  obtain ⟨more, back, whole, blanks⟩ := @trimBy_of_head _ _ _ rest stays
  rw [← text]
  conv => enter [1, back, 1, 1]; rw [whole]
  by_cases none : back = []
  · subst none
    exact ⟨[], by rw [List.append_nil, List.append_nil], by simp⟩
  · rw [ofLines_append _ none, flatMap_break more, List.append_assoc]
    refine ⟨_, rfl, ?_⟩
    intro d mem
    rw [List.singleton_append, List.mem_cons] at mem
    rcases mem with rfl | mem
    · decide
    · exact isBlank_ofLines blanks d mem

end JavaUnits.Text

namespace JavaUnits.Files

theorem put_of_notMem {name : Text} {files : Files} (new : name ∉ files.names) (text : Text) :
    files.put name text = files ++ [(name, text)] := by
  induction files with
  | nil => rfl
  | cons file files ih =>
    simp only [names, List.map_cons, List.mem_cons, not_or] at new
    rw [put, if_neg (Ne.symm new.1), ih new.2, List.cons_append]

theorem ofPairs_of_nodup {pairs : List (Text × Text)} (distinct : (pairs.map Prod.fst).Nodup) :
    ofPairs pairs = pairs := by
  have adds (files : Files) (distinct : (files.names ++ pairs.map Prod.fst).Nodup) :
      pairs.foldl (fun files pair => files.put pair.1 pair.2) files = files ++ pairs := by
    induction pairs generalizing files with
    | nil => simp
    | cons pair pairs ih =>
      have new : pair.1 ∉ files.names := by
        intro mem
        rw [List.map_cons] at distinct
        have := (List.nodup_append.1 distinct).2.2 _ mem pair.1 (by simp)
        exact this rfl
      rw [List.foldl_cons, put_of_notMem new, ih]
      · simp
      · exact (List.nodup_append.1 distinct).2.1.of_cons
      · simpa [names, List.append_assoc] using distinct
  simpa [ofPairs] using adds [] distinct

end JavaUnits.Files
