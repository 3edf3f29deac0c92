import Mathlib.Data.List.Induction
import JavaUnits.Layout
import JavaUnits.Proofs.Scan

/-!
Where tokens stand. A position that counts the line breaks before a place leads back to the place,
as long as no token before it on its line holds a line break.
-/

namespace JavaUnits

open CodePoint

namespace Text

variable {s t : Text}

/-- The end of a text since its last line break. -/
def lastLine (s : Text) : Text :=
  (s.reverse.takeWhile fun c : CodePoint => c ≠ '\n').reverse

/-- The front of a text up to its first line break. -/
def firstLine (s : Text) : Text :=
  s.takeWhile fun c : CodePoint => c ≠ '\n'

@[simp] theorem lastLine_nil : lastLine [] = [] := rfl

theorem lastLine_append (s t : Text) :
    lastLine (s ++ t) = if ofChar '\n' ∈ t then lastLine t else lastLine s ++ t := by
  rw [lastLine, List.reverse_append, List.takeWhile_append]
  have whole : (t.reverse.takeWhile fun c : CodePoint => decide (c ≠ ofChar '\n')).length
      = t.reverse.length ↔ ofChar '\n' ∉ t := by
    constructor
    · intro same mem
      have kept := (List.takeWhile_prefix (l := t.reverse)
        fun c : CodePoint => decide (c ≠ ofChar '\n')).eq_of_length same
      have := List.takeWhile_eq_self_iff.1 kept _ (List.mem_reverse.2 mem)
      simp at this
    · intro none
      rw [List.takeWhile_eq_self_iff.2]
      intro c mem
      simp only [ne_eq, decide_eq_true_eq]
      rintro rfl
      exact none (List.mem_reverse.1 mem)
  by_cases mem : ofChar '\n' ∈ t
  · rw [if_neg (fun same => whole.1 same mem), if_pos mem]
    rfl
  · rw [if_pos (whole.2 mem), if_neg mem]
    simp [lastLine]

theorem lastLine_of_noBreak (none : ofChar '\n' ∉ s) : lastLine s = s := by
  have := lastLine_append [] s
  simpa [none] using this

theorem lastLine_length_le (s : Text) : (lastLine s).length ≤ s.length := by
  have := (List.takeWhile_prefix (l := s.reverse)
    fun c : CodePoint => decide (c ≠ ofChar '\n')).length_le
  simpa [lastLine] using this

theorem break_notMem_lastLine (s : Text) : ofChar '\n' ∉ lastLine s := by
  intro mem
  have := List.mem_takeWhile_imp (List.mem_reverse.1 mem)
  simp at this

theorem eq_append_lastLine (mem : ofChar '\n' ∈ s) :
    ∃ front, s = front ++ (ofChar '\n' :: s.lastLine) := by
  have split := List.takeWhile_append_dropWhile (p := fun c : CodePoint => decide (c ≠ ofChar '\n'))
    (l := s.reverse)
  cases later : s.reverse.dropWhile fun c : CodePoint => decide (c ≠ ofChar '\n') with
  | nil =>
    rw [later, List.append_nil] at split
    rw [← List.mem_reverse, ← split] at mem
    have := List.mem_takeWhile_imp mem
    simp at this
  | cons c front =>
    have stops := List.head?_dropWhile_not
      (fun c : CodePoint => decide (c ≠ ofChar '\n')) s.reverse
    rw [later] at stops split
    obtain rfl : c = ofChar '\n' := by simpa using stops
    refine ⟨front.reverse, ?_⟩
    have whole := congrArg List.reverse split
    simpa [Text.lastLine] using whole.symm

theorem firstLine_append_of_noBreak (none : ofChar '\n' ∉ s) :
    firstLine (s ++ t) = s ++ firstLine t := by
  rw [firstLine, List.takeWhile_append_of_pos]
  · rfl
  · intro c mem
    simp only [ne_eq, decide_eq_true_eq]
    rintro rfl
    exact none mem

theorem lineStart_eq (s t : Text) :
    (s ++ t).lineStart s.length = s.length - (lastLine s).length := by
  simp [lineStart, lastLine]

theorem lines_cons_break (s : Text) : lines (ofChar '\n' :: s) = [] :: lines s := by
  rw [lines, splitOn_cons, if_pos rfl]
  rfl

theorem lines_cons_of_ne {c : CodePoint} (other : c ≠ ofChar '\n') (s : Text) :
    ∃ line rest, lines s = line :: rest ∧ lines (c :: s) = (c :: line) :: rest := by
  rw [lines, lines, splitOn_cons, if_neg other]
  match parts : splitOn (ofChar '\n') s, splitOn_ne_nil (ofChar '\n') s with
  | line :: rest, _ => exact ⟨line, rest, rfl, by simp⟩

theorem lines_head (s : Text) : (lines s)[0]? = some (firstLine s) := by
  induction s with
  | nil => rfl
  | cons c s ih =>
    by_cases isBreak : c = ofChar '\n'
    · rw [isBreak, lines_cons_break]
      simp [firstLine]
    · obtain ⟨line, rest, before, after⟩ := lines_cons_of_ne isBreak s
      rw [before] at ih
      rw [after]
      simp only [List.getElem?_cons_zero, Option.some.injEq] at ih ⊢
      simp [firstLine, isBreak, ih]

end Text

open Text

namespace Layout

theorem rowsFrom_line (start : Nat) (front rest : Text) :
    (rowsFrom start (lines (front ++ rest)))[front.count (ofChar '\n')]?
      = some (start + (front.length - (lastLine front).length),
          lastLine front ++ firstLine rest) := by
  induction front generalizing start with
  | nil =>
    have head := lines_head rest
    cases parts : lines rest with
    | nil => simp [parts] at head
    | cons line later =>
      rw [parts] at head
      simp only [List.getElem?_cons_zero, Option.some.injEq] at head
      simp [rowsFrom, parts, head]
  | cons c front ih =>
    by_cases isBreak : c = ofChar '\n'
    · subst isBreak
      have ih := ih (start + 1)
      have last : lastLine (ofChar '\n' :: front) = lastLine front := by
        have := lastLine_append [ofChar '\n'] front
        by_cases mem : ofChar '\n' ∈ front
        · simpa [mem] using this
        · rw [if_neg mem, show lastLine [ofChar '\n'] = [] by decide] at this
          simpa [lastLine_of_noBreak mem] using this
      rw [List.cons_append, lines_cons_break, List.count_cons_self, rowsFrom,
        List.getElem?_cons_succ, last]
      simp only [List.length_nil, Nat.add_zero, ih, Option.some.injEq, Prod.mk.injEq, and_true]
      have := lastLine_length_le front
      simp only [List.length_cons]
      omega
    · have ih := ih (start + 1)
      obtain ⟨line, later, before, after⟩ := lines_cons_of_ne isBreak (front ++ rest)
      rw [before, rowsFrom] at ih
      rw [List.cons_append, after, rowsFrom, List.count_cons_of_ne isBreak]
      by_cases mem : ofChar '\n' ∈ front
      · have last : lastLine (c :: front) = lastLine front := by
          have := lastLine_append [c] front
          simpa [mem] using this
        have more : 0 < front.count (ofChar '\n') := List.count_pos_iff.2 mem
        obtain ⟨k, count⟩ : ∃ k, front.count (ofChar '\n') = k + 1 :=
          ⟨front.count (ofChar '\n') - 1, by omega⟩
        rw [count, List.getElem?_cons_succ] at ih ⊢
        rw [last, List.length_cons, show start + (line.length + 1) + 1
          = start + 1 + line.length + 1 by omega, ih]
        have := lastLine_length_le front
        simp only [List.length_cons, Option.some.injEq, Prod.mk.injEq, and_true]
        omega
      · have none : ofChar '\n' ∉ c :: front := by simp [mem, Ne.symm isBreak]
        rw [List.count_eq_zero_of_not_mem mem, lastLine_of_noBreak mem] at ih
        rw [List.count_eq_zero_of_not_mem mem, lastLine_of_noBreak none]
        simp only [List.getElem?_cons_zero, Option.some.injEq, Prod.mk.injEq] at ih ⊢
        simp [ih.2]

end Layout

namespace Position

/-- Whether `p` is the position behind a text whose line breaks all count. -/
def IsAfter (p : Position) (front : Text) : Prop :=
  p.line = front.count (ofChar '\n') + 1 ∧ p.column = (lastLine front).length + 1

theorem isAfter_start : start.IsAfter [] := by
  simp [IsAfter, start]

theorem IsAfter.passAll {p : Position} {front : Text} (after : p.IsAfter front) (s : Text) :
    (p.passAll s).IsAfter (front ++ s) := by
  induction s generalizing p front with
  | nil => simpa [Position.passAll] using after
  | cons c s ih =>
    have next : (p.pass c).IsAfter (front ++ [c]) := by
      obtain ⟨line, column⟩ := after
      by_cases isBreak : c = ofChar '\n'
      · subst isBreak
        simp [IsAfter, pass, line, lastLine_append, show lastLine [ofChar '\n'] = [] by decide]
      · simp [IsAfter, pass, isBreak, line, column, lastLine_append, Ne.symm isBreak]
    have := ih next
    rwa [List.append_assoc, List.singleton_append] at this

theorem IsAfter.passToken {p : Position} {front s : Text} (after : p.IsAfter front)
    (none : ofChar '\n' ∉ s) : (p.passToken s).IsAfter (front ++ s) := by
  obtain ⟨line, column⟩ := after
  rw [IsAfter, lastLine_append, if_neg none, List.count_append,
    List.count_eq_zero_of_not_mem none]
  refine ⟨by simp [Position.passToken, line], ?_⟩
  simp only [Position.passToken, column, List.length_append]
  omega

end Position

namespace Layout

/-- A token is found where it stands. -/
theorem offset?_of_isAfter {front value : Text} {p : Position} (rest : Text) (kind : Kind)
    (after : p.IsAfter front) (none : ofChar '\n' ∉ value) :
    offset? (ofText (front ++ (value ++ rest))) ⟨kind, value, p⟩ = some front.length := by
  obtain ⟨line, column⟩ := after
  have row := rowsFrom_line 0 front (value ++ rest)
  have holds : holdsAt (lastLine front ++ firstLine (value ++ rest)) value
      (lastLine front).length = true := by
    rw [holdsAt, List.drop_left, firstLine_append_of_noBreak none, List.isPrefixOf_iff_prefix]
    exact List.prefix_append value _
  have := lastLine_length_le front
  simp only [offset?, line, column, Nat.add_sub_cancel, ofText, row, Option.map_some,
    placeInLine, holds, if_true, Option.some.injEq]
  omega

end Layout

namespace Scan

variable {ps : List Piece} {p : Position}

theorem tokensFrom_append (p : Position) (ps qs : List Piece) :
    tokensFrom p (ps ++ qs) = tokensFrom p ps ++ tokensFrom (positionFrom p ps) qs := by
  induction ps generalizing p with
  | nil => rfl
  | cons piece ps ih => simp [tokensFrom, positionFrom, ih]

theorem positionFrom_append (p : Position) (ps qs : List Piece) :
    positionFrom p (ps ++ qs) = positionFrom (positionFrom p ps) qs := by
  induction ps generalizing p with
  | nil => rfl
  | cons piece ps ih => simp [positionFrom, ih]

theorem tokensFrom_eq_append {xs ys : List Token} (split : tokensFrom p ps = xs ++ ys) :
    ∃ front back, ps = front ++ back ∧ xs = tokensFrom p front ∧
      ys = tokensFrom (positionFrom p front) back := by
  induction ps generalizing p xs with
  | nil =>
    obtain ⟨rfl, rfl⟩ := List.append_eq_nil_iff.1 split.symm
    exact ⟨[], [], rfl, rfl, rfl⟩
  | cons piece ps ih =>
    cases xs with
    | nil => exact ⟨[], piece :: ps, rfl, rfl, split.symm⟩
    | cons x xs =>
      rw [tokensFrom, List.cons_append, List.cons.injEq] at split
      obtain ⟨front, back, rfl, rfl, rfl⟩ := ih split.2
      exact ⟨piece :: front, back, rfl, by rw [tokensFrom, split.1], rfl⟩

def tokenAfter (front : List Piece) (p : Piece) : Token :=
  ⟨p.kind, p.lexeme, (positionFrom .start front).passAll p.gap⟩

/-- Whether every token is found where it stands. -/
def Placed (code : Text) (ps : List Piece) : Prop :=
  ∀ front p back, ps = front ++ p :: back →
    Layout.offset? (.ofText code) (tokenAfter front p)
      = some ((source front).length + p.gap.length)

theorem Placed.nodup {code : Text} (placed : Placed code ps) (ink : ∀ p ∈ ps, p.lexeme ≠ []) :
    (tokensFrom .start ps).Nodup := by
  induction ps using List.reverseRecOn with
  | nil => exact List.nodup_nil
  | append_singleton ps p ih =>
    have front : Placed code ps := by
      rintro front q back rfl
      exact placed front q (back ++ [p]) (by simp)
    rw [tokensFrom_append, List.nodup_append]
    refine ⟨ih front fun q mem => ink q (List.mem_append_left _ mem),
      List.pairwise_singleton _ _, ?_⟩
    rintro t mem t' last rfl
    obtain rfl : t = tokenAfter ps p := List.mem_singleton.1 last
    obtain ⟨xs, ys, split⟩ := List.append_of_mem mem
    obtain ⟨before, later, rfl, -, whole⟩ := tokensFrom_eq_append split
    cases later with
    | nil => cases whole
    | cons q back =>
      have same : tokenAfter (before ++ q :: back) p = tokenAfter before q :=
        (List.cons.inj whole).1
      -- Where the one is found the other is not.
      have here := placed before q (back ++ [p]) (by simp)
      have there := placed (before ++ q :: back) p [] rfl
      rw [same, here, Option.some.injEq] at there
      have length := List.length_pos_iff.2 (ink q (by simp))
      simp only [source_append, source_cons, List.length_append] at there
      omega

theorem isAfter_positionFrom (none : ∀ p ∈ ps, ofChar '\n' ∉ p.lexeme) :
    (positionFrom .start ps).IsAfter (source ps) := by
  have go (q : Position) (front : Text) (after : q.IsAfter front) :
      (positionFrom q ps).IsAfter (front ++ source ps) := by
    induction ps generalizing q front with
    | nil => simpa [positionFrom] using after
    | cons p ps ih =>
      rw [List.forall_mem_cons] at none
      have := ih none.2 _ _ ((after.passAll p.gap).passToken none.1)
      simpa [positionFrom, source_cons] using this
  simpa using go .start [] Position.isAfter_start

theorem placed_of_noBreak (none : ∀ p ∈ ps, ofChar '\n' ∉ p.lexeme) (t : Text) :
    Placed (source ps ++ t) ps := by
  rintro front p back rfl
  have after : (positionFrom .start front).IsAfter (source front) :=
    isAfter_positionFrom fun q mem => none q (by simp [mem])
  have found := Layout.offset?_of_isAfter (source back ++ t) p.kind
    (after.passAll p.gap) (none p (by simp))
  rw [List.length_append] at found
  rw [source_append, source_cons]
  simpa [tokenAfter] using found

theorem placed_run {s : Text} (none : ∀ p ∈ (run s).1, ofChar '\n' ∉ p.lexeme) :
    Placed s (run s).1 := by
  have placed := placed_of_noBreak none (run s).2.text
  rwa [source_run] at placed

end Scan

end JavaUnits
