import JavaUnits.Token.Gap
import Mathlib.Data.List.TakeWhile

/-!
Gaps: texts of blanks and closed comments. Every gap is skipped as a whole, whatever follows it, and
what is skipped at the front of a text is a gap unless a line comment runs to the end of the text.
-/

namespace JavaUnits.Token

/-- A text of blanks and comments, all of them closed. -/
inductive IsGap : Text → Prop
  | nil : IsGap []
  | blank {c : CodePoint} {s : Text} : c.isBlank = true → IsGap s → IsGap (c :: s)
  | line {body s : Text} : CodePoint.ofChar '\n' ∉ body → IsGap s →
      IsGap (CodePoint.ofChar '/' :: CodePoint.ofChar '/' :: (body ++ CodePoint.ofChar '\n' :: s))
  | block {body s : Text} : closingLength? 0 body = some body.length → IsGap s →
      IsGap (CodePoint.ofChar '/' :: CodePoint.ofChar '*' :: (body ++ s))

/-- A gap that may end in a line comment without its line break. -/
def IsTail (t : Text) : Prop :=
  IsGap t ∨ ∃ gap body : Text, IsGap gap ∧ CodePoint.ofChar '\n' ∉ body ∧
    t = gap ++ CodePoint.ofChar '/' :: CodePoint.ofChar '/' :: body

theorem IsGap.append {g h : Text} (front : IsGap g) (back : IsGap h) : IsGap (g ++ h) := by
  induction front with
  | nil => exact back
  | blank isBlank _ ih => exact .blank isBlank ih
  | @line body s noBreak _ ih =>
    have joined := IsGap.line noBreak ih
    simpa using joined
  | @block body s closes _ ih =>
    have joined := IsGap.block closes ih
    simpa using joined

theorem IsGap.of_blank {s : Text} (blank : ∀ c ∈ s, c.isBlank = true) : IsGap s := by
  induction s with
  | nil => exact .nil
  | cons c s ih => exact .blank (blank c (by simp)) (ih fun d mem => blank d (by simp [mem]))

theorem IsGap.tail {g : Text} (gap : IsGap g) : IsTail g :=
  .inl gap

theorem IsTail.append_break {t : Text} (tail : IsTail t) :
    IsGap (t ++ [CodePoint.ofChar '\n']) := by
  have newline : (CodePoint.ofChar '\n').isBlank = true := by decide
  rcases tail with gap | ⟨gap, body, isGap, noBreak, rfl⟩
  · exact gap.append (.blank newline .nil)
  · have closed := isGap.append (IsGap.line noBreak .nil)
    simpa using closed

theorem slash_not_blank : (CodePoint.ofChar '/').isBlank = false := by decide

/-! ## Skipping -/

theorem gapLength_blank {c : CodePoint} (s : Text) (blank : c.isBlank = true) :
    gapLength (c :: s) = 1 + gapLength s := by
  rw [gapLength, if_pos blank]
  cases s with
  | nil => simp [gapLength]
  | cons d s =>
    by_cases next : d.isBlank = true
    · rw [gapLength, if_pos next]
      simp only [List.takeWhile_cons, next, if_true, List.length_cons, Nat.add_sub_cancel_left,
        List.drop_succ_cons]
      omega
    · simp [next]

theorem gapLength_comment {s : Text} {n : Nat} (comment : commentLength? s = some n) :
    gapLength s = n + gapLength (s.drop n) := by
  match s, comment with
  | c :: d :: s, comment =>
    have slash : c = CodePoint.ofChar '/' := by
      simp only [commentLength?] at comment
      by_cases line : c = CodePoint.ofChar '/' ∧ d = CodePoint.ofChar '/'
      · exact line.1
      · by_cases block : c = CodePoint.ofChar '/' ∧ d = CodePoint.ofChar '*'
        · exact block.1
        · simp [line, block] at comment
    have two : 2 ≤ n := by
      simp only [commentLength?] at comment
      split at comment
      · simp only [Option.some.injEq] at comment
        omega
      · split at comment
        · obtain ⟨m, _, rfl⟩ := Option.map_eq_some_iff.1 comment
          omega
        · simp at comment
    rw [gapLength, if_neg (by simp [slash, slash_not_blank]), comment]
    obtain ⟨m, rfl⟩ : ∃ m, n = m + 1 := ⟨n - 1, by omega⟩
    rfl

theorem closingLength?_append {passed n : Nat} {s : Text} (t : Text)
    (closes : closingLength? passed s = some n) : closingLength? passed (s ++ t) = some n := by
  fun_induction closingLength? passed s with
  | case1 => simp at closes
  | case2 => simp at closes
  | case3 passed c d s mark => simpa [closingLength?, mark] using closes
  | case4 passed c d s other ih =>
    have rest := ih closes
    simp only [List.cons_append, closingLength?, if_neg other]
    simpa using rest

theorem closingLength?_le {passed n : Nat} {s : Text}
    (closes : closingLength? passed s = some n) : n ≤ passed + s.length := by
  fun_induction closingLength? passed s with
  | case1 => simp at closes
  | case2 => simp at closes
  | case3 passed c d s mark =>
    simp only [Option.some.injEq] at closes
    simp only [List.length_cons]
    omega
  | case4 passed c d s other ih =>
    have rest := ih closes
    simp only [List.length_cons] at rest ⊢
    omega

/-- What closes a comment closes it already where the comment ends. -/
theorem closingLength?_take {passed n : Nat} {s : Text}
    (closes : closingLength? passed s = some (passed + n)) :
    closingLength? passed (s.take n) = some (passed + n) := by
  induction s generalizing passed n with
  | nil => simp [closingLength?] at closes
  | cons c s ih =>
    cases s with
    | nil => simp [closingLength?] at closes
    | cons d s =>
      by_cases mark : c = CodePoint.ofChar '*' ∧ d = CodePoint.ofChar '/'
      · simp only [closingLength?, if_pos mark, Option.some.injEq] at closes
        obtain rfl : n = 2 := by omega
        simp [closingLength?, mark]
      · simp only [closingLength?, if_neg mark] at closes
        have bound : passed + 3 ≤ passed + n := by
          cases s with
          | nil => simp [closingLength?] at closes
          | cons e s =>
            have := closingLength?_ge closes
            omega
        obtain ⟨m, rfl⟩ : ∃ m, n = m + 2 := ⟨n - 2, by omega⟩
        have rest := @ih (passed + 1) (m + 1) (by rw [closes]; congr 1; omega)
        simp only [List.take_succ_cons] at rest ⊢
        simp only [closingLength?, if_neg mark, rest]
        congr 1
        omega
where
  closingLength?_ge {passed n : Nat} {s : Text} (closes : closingLength? passed s = some n) :
      passed + 2 ≤ n := by
    fun_induction closingLength? passed s with
    | case1 => simp at closes
    | case2 => simp at closes
    | case3 passed c d s mark =>
      simp only [Option.some.injEq] at closes
      omega
    | case4 passed c d s other ih =>
      have := ih closes
      omega

theorem lineLength_append {body s : Text} (noBreak : CodePoint.ofChar '\n' ∉ body) :
    lineLength (body ++ CodePoint.ofChar '\n' :: s) = body.length + 1 := by
  have kept : (body ++ CodePoint.ofChar '\n' :: s).takeWhile
      (fun c : CodePoint => decide (c ≠ CodePoint.ofChar '\n')) = body := by
    induction body with
    | nil => simp
    | cons c body ih =>
      simp only [List.mem_cons, not_or] at noBreak
      have ih := ih noBreak.2
      simp only [List.cons_append, List.takeWhile_cons]
      simp only [ne_eq, Ne.symm noBreak.1, not_false_eq_true, decide_true, if_true]
      simpa using ih
  simp only [lineLength, kept, List.length_append, List.length_cons]
  omega

theorem lineLength_of_noBreak {body : Text} (noBreak : CodePoint.ofChar '\n' ∉ body) :
    lineLength body = body.length := by
  have kept : body.takeWhile (fun c : CodePoint => decide (c ≠ CodePoint.ofChar '\n')) = body := by
    rw [List.takeWhile_eq_self_iff]
    intro c mem
    simp only [decide_eq_true_eq]
    rintro rfl
    exact noBreak mem
  rw [lineLength, kept]
  omega

theorem IsGap.gapLength_append {g : Text} (gap : IsGap g) (s : Text) :
    gapLength (g ++ s) = g.length + gapLength s := by
  induction gap with
  | nil => simp
  | blank isBlank _ ih =>
    rw [List.cons_append, gapLength_blank _ isBlank, ih, List.length_cons]
    omega
  | @line body t noBreak _ ih =>
    have comment : commentLength?
        (CodePoint.ofChar '/' :: CodePoint.ofChar '/' :: (body ++ CodePoint.ofChar '\n' :: t) ++ s)
        = some (2 + (body.length + 1)) := by
      simp [commentLength?, lineLength_append noBreak]
    rw [gapLength_comment comment]
    have rest : (CodePoint.ofChar '/' :: CodePoint.ofChar '/'
        :: (body ++ CodePoint.ofChar '\n' :: t) ++ s).drop
        (2 + (body.length + 1)) = t ++ s := by
      rw [Nat.add_comm]
      simp
    rw [rest, ih]
    simp only [List.length_cons, List.length_append]
    omega
  | @block body t closes _ ih =>
    have comment : commentLength? (CodePoint.ofChar '/' :: CodePoint.ofChar '*' :: (body ++ t) ++ s)
        = some (2 + body.length) := by
      have closed := closingLength?_append (t ++ s) closes
      have different : CodePoint.ofChar '*' ≠ CodePoint.ofChar '/' := by decide
      simp [commentLength?, different, closed]
    rw [gapLength_comment comment]
    have rest : (CodePoint.ofChar '/' :: CodePoint.ofChar '*' :: (body ++ t) ++ s).drop
        (2 + body.length) = t ++ s := by
      rw [Nat.add_comm]
      simp
    rw [rest, ih]
    simp only [List.length_cons, List.length_append]
    omega

@[simp] theorem gapLength_nil : gapLength [] = 0 := by
  rw [gapLength]

theorem IsGap.gapLength_eq {g : Text} (gap : IsGap g) : gapLength g = g.length := by
  simpa using gap.gapLength_append []

theorem IsTail.gapLength_eq {t : Text} (tail : IsTail t) : gapLength t = t.length := by
  rcases tail with gap | ⟨gap, body, isGap, noBreak, rfl⟩
  · exact gap.gapLength_eq
  · have comment : commentLength? (CodePoint.ofChar '/' :: CodePoint.ofChar '/' :: body)
        = some (2 + body.length) := by
      simp [commentLength?, lineLength_of_noBreak noBreak]
    have nothing :
        (CodePoint.ofChar '/' :: CodePoint.ofChar '/' :: body).drop (2 + body.length) = [] := by
      apply List.drop_eq_nil_of_le
      simp only [List.length_cons]
      omega
    rw [isGap.gapLength_append, gapLength_comment comment, nothing]
    simp only [List.length_append, List.length_cons, gapLength_nil]
    omega

/-! ## What is skipped -/

theorem takeWhile_noBreak (s : Text) :
    CodePoint.ofChar '\n'
      ∉ s.takeWhile (fun c : CodePoint => decide (c ≠ CodePoint.ofChar '\n')) := by
  intro mem
  have other := List.mem_takeWhile_imp mem
  simp at other

theorem comment_take {s : Text} {n : Nat} (comment : commentLength? s = some n) :
    0 < n ∧ n ≤ s.length ∧ IsTail (s.take n) ∧ (n < s.length → IsGap (s.take n)) := by
  match s, comment with
  | c :: d :: s, comment =>
    simp only [commentLength?] at comment
    split at comment
    · rename_i marks
      obtain ⟨rfl, rfl⟩ := marks
      simp only [Option.some.injEq] at comment
      subst comment
      have front := takeWhile_noBreak s
      have split := List.takeWhile_append_dropWhile
        (p := fun c : CodePoint => decide (c ≠ CodePoint.ofChar '\n')) (l := s)
      generalize s.takeWhile (fun c : CodePoint => decide (c ≠ CodePoint.ofChar '\n')) = body
        at front split
      cases rest : s.dropWhile (fun c : CodePoint => decide (c ≠ CodePoint.ofChar '\n')) with
      | nil =>
        rw [rest, List.append_nil] at split
        subst split
        rw [lineLength_of_noBreak front, Nat.add_comm]
        refine ⟨by omega, by simp, ?_, by simp⟩
        exact .inr ⟨[], body, .nil, front, by simp⟩
      | cons e later =>
        have isBreak : e = CodePoint.ofChar '\n' := by
          have := List.head?_dropWhile_not
            (fun c : CodePoint => decide (c ≠ CodePoint.ofChar '\n')) s
          rw [rest] at this
          simpa using this
        subst isBreak
        rw [rest] at split
        subst split
        rw [lineLength_append front, Nat.add_comm]
        have taken : (CodePoint.ofChar '/' :: CodePoint.ofChar '/' ::
            (body ++ CodePoint.ofChar '\n' :: later)).take (body.length + 1 + 2)
            = CodePoint.ofChar '/' :: CodePoint.ofChar '/'
              :: (body ++ [CodePoint.ofChar '\n']) := by
          have whole : body.take (body.length + 1) = body := List.take_of_length_le (by omega)
          simp [List.take_append, whole]
        rw [taken]
        have gap := IsGap.line front .nil
        exact ⟨by omega, by simp, gap.tail, fun _ => gap⟩
    · split at comment
      · rename_i marks
        obtain ⟨rfl, rfl⟩ := marks
        obtain ⟨m, closes, rfl⟩ := Option.map_eq_some_iff.1 comment
        have bound := closingLength?_le closes
        have closed := @closingLength?_take 0 m _ (by simpa using closes)
        have gap : IsGap (CodePoint.ofChar '/' :: CodePoint.ofChar '*' :: (s.take m ++ [])) := by
          apply IsGap.block _ .nil
          rw [closed, List.length_take]
          congr 1
          omega
        rw [List.append_nil] at gap
        rw [Nat.add_comm]
        simp only [List.take_succ_cons, List.length_cons]
        exact ⟨by omega, by omega, gap.tail, fun _ => gap⟩
      · simp at comment

theorem IsGap.append_tail {g t : Text} (front : IsGap g) (back : IsTail t) : IsTail (g ++ t) := by
  rcases back with gap | ⟨gap, body, isGap, noBreak, rfl⟩
  · exact (front.append gap).tail
  · exact .inr ⟨g ++ gap, body, front.append isGap, noBreak, by simp⟩

/-- What is skipped is a tail, and a gap unless it is all there is. Nothing more can be skipped
after it. -/
theorem gapLength_spec (s : Text) :
    gapLength s ≤ s.length ∧ IsTail (s.take (gapLength s)) ∧
      (gapLength s < s.length → IsGap (s.take (gapLength s))) ∧
      gapLength (s.drop (gapLength s)) = 0 := by
  match s with
  | [] => simpa using IsGap.nil.tail
  | c :: s =>
    by_cases blank : c.isBlank = true
    · obtain ⟨bound, tail, gap, stop⟩ := gapLength_spec s
      have one : IsGap [c] := .blank blank .nil
      rw [gapLength_blank s blank, Nat.add_comm]
      simp only [List.length_cons, List.take_succ_cons, List.drop_succ_cons]
      refine ⟨by omega, ?_, ?_, stop⟩
      · exact one.append_tail tail
      · intro inside
        exact .blank blank (gap (by omega))
    · cases comment : commentLength? (c :: s) with
      | none =>
        have zero : gapLength (c :: s) = 0 := by
          rw [gapLength, if_neg blank, comment]
        rw [zero]
        exact ⟨by omega, IsGap.nil.tail, fun _ => .nil, by simpa using zero⟩
      | some n =>
        obtain ⟨positive, inside, commentTail, commentGap⟩ := comment_take comment
        have shorter : ((c :: s).drop n).length < (c :: s).length := by
          simp only [List.length_drop, List.length_cons] at inside ⊢
          omega
        obtain ⟨bound, tail, gap, stop⟩ := gapLength_spec ((c :: s).drop n)
        rw [gapLength_comment comment, List.take_add, ← List.drop_drop]
        rw [List.length_drop] at bound gap
        refine ⟨by omega, ?_, ?_, stop⟩
        · by_cases whole : n < (c :: s).length
          · exact (commentGap whole).append_tail tail
          · have nothing : (c :: s).drop n = [] := List.drop_eq_nil_of_le (by omega)
            simpa [nothing] using commentTail
        · intro more
          exact (commentGap (by omega)).append (gap (by omega))
termination_by s.length

/-! ## Gaps cut short -/

theorem IsGap.of_cons_blank {c : CodePoint} {s : Text} (gap : IsGap (c :: s))
    (blank : c.isBlank = true) : IsGap s := by
  have other : c ≠ CodePoint.ofChar '/' := by
    rintro rfl
    simp [slash_not_blank] at blank
  generalize whole : c :: s = g at gap
  cases gap with
  | nil => simp at whole
  | blank _ rest => rwa [(List.cons.inj whole).2]
  | line => exact absurd (List.cons.inj whole).1 other
  | block => exact absurd (List.cons.inj whole).1 other

theorem IsGap.of_append_blank {b s : Text} (gap : IsGap (b ++ s))
    (blank : ∀ c ∈ b, c.isBlank = true) : IsGap s := by
  induction b with
  | nil => exact gap
  | cons c b ih =>
    rw [List.forall_mem_cons] at blank
    exact ih (gap.of_cons_blank blank.1) blank.2

theorem IsTail.of_append_blank {b s : Text} (tail : IsTail (b ++ s))
    (blank : ∀ c ∈ b, c.isBlank = true) : IsTail s := by
  induction b with
  | nil => exact tail
  | cons c b ih =>
    rw [List.forall_mem_cons] at blank
    refine ih ?_ blank.2
    rcases tail with gap | ⟨gap, body, isGap, noBreak, split⟩
    · exact (gap.of_cons_blank blank.1).tail
    · cases gap with
      | nil =>
        rw [List.nil_append, List.cons_append, List.cons.injEq] at split
        have := blank.1
        simp [split.1, slash_not_blank] at this
      | cons d gap =>
        rw [List.cons_append, List.cons_append, List.cons.injEq] at split
        obtain ⟨rfl, split⟩ := split
        exact .inr ⟨gap, body, isGap.of_cons_blank blank.1, noBreak, split⟩

theorem IsTail.cons_blank {c : CodePoint} {t : Text} (blank : c.isBlank = true)
    (tail : IsTail t) : IsTail (c :: t) :=
  IsGap.append_tail (g := [c]) (.blank blank .nil) tail

theorem closingLength?_getLast {body : Text} {passed n : Nat}
    (closes : closingLength? passed body = some n) (whole : n = passed + body.length) :
    body.getLast? = some (CodePoint.ofChar '/') := by
  fun_induction closingLength? passed body with
  | case1 => simp at closes
  | case2 => simp at closes
  | case3 passed c d s mark =>
    simp only [Option.some.injEq] at closes
    simp only [List.length_cons] at whole
    obtain rfl : s = [] := List.length_eq_zero_iff.1 (by omega)
    simp [mark.2]
  | case4 passed c d s other ih =>
    rw [List.getLast?_cons_cons]
    apply ih closes
    simp only [List.length_cons] at whole ⊢
    omega

theorem nil_of_blank_slash {b s : Text} (blank : ∀ c ∈ b, c.isBlank = true)
    (begins : b = CodePoint.ofChar '/' :: s) : False := by
  have := blank (CodePoint.ofChar '/') (by simp [begins])
  simp [slash_not_blank] at this

/-- Blanks at the end of a gap may be left out; a line comment may lose its line break. -/
theorem IsGap.of_append_blanks {g t b : Text} (gap : IsGap g) (split : g = t ++ b)
    (blank : ∀ c ∈ b, c.isBlank = true) : IsTail t := by
  induction gap generalizing t with
  | nil =>
    obtain ⟨rfl, -⟩ := List.append_eq_nil_iff.1 split.symm
    exact IsGap.nil.tail
  | @blank c s isBlank _ ih =>
    cases t with
    | nil => exact IsGap.nil.tail
    | cons d t =>
      rw [List.cons_append, List.cons.injEq] at split
      obtain ⟨rfl, split⟩ := split
      exact (ih split).cons_blank isBlank
  | @line body s noBreak _ ih =>
    match t, split with
    | [], split => exact (nil_of_blank_slash blank split.symm).elim
    | [_], split =>
      rw [List.cons_append, List.cons.injEq, List.nil_append] at split
      exact (nil_of_blank_slash blank split.2.symm).elim
    | _ :: _ :: t, split =>
      simp only [List.cons_append, List.cons.injEq] at split
      obtain ⟨rfl, rfl, split⟩ := split
      rcases List.append_eq_append_iff.1 split with ⟨more, rfl, later⟩ | ⟨more, rfl, _⟩
      · cases more with
        | nil =>
          exact .inr ⟨[], body, .nil, noBreak, by simp⟩
        | cons c more =>
          rw [List.cons_append, List.cons.injEq] at later
          obtain ⟨rfl, later⟩ := later
          have closed := (IsGap.line noBreak .nil).append_tail (ih later)
          simpa using closed
      · refine .inr ⟨[], t, .nil, fun mem => noBreak (List.mem_append_left _ mem), by simp⟩
  | @block body s closes _ ih =>
    match t, split with
    | [], split => exact (nil_of_blank_slash blank split.symm).elim
    | [_], split =>
      rw [List.cons_append, List.cons.injEq, List.nil_append] at split
      have star := blank (CodePoint.ofChar '*') (by simp [← split.2])
      simp [show (CodePoint.ofChar '*').isBlank = false by decide] at star
    | _ :: _ :: t, split =>
      simp only [List.cons_append, List.cons.injEq] at split
      obtain ⟨rfl, rfl, split⟩ := split
      rcases List.append_eq_append_iff.1 split with ⟨more, rfl, later⟩ | ⟨more, rfl, rfl⟩
      · have closed := (IsGap.block closes .nil).append_tail (ih later)
        simpa using closed
      · -- The comment's end is not blank, so it cannot stand among the blanks.
        cases more with
        | nil =>
          rw [List.append_nil] at closes
          have closed := IsGap.block closes .nil
          exact (by simpa using closed : IsGap _).tail
        | cons c more =>
          have last := closingLength?_getLast closes (by simp)
          rw [List.getLast?_append, List.getLast?_cons, Option.some_or] at last
          have mem : CodePoint.ofChar '/' ∈ c :: more := by
            apply List.mem_of_getLast?
            rw [List.getLast?_cons]
            exact last
          have := blank _ (List.mem_append_left _ mem)
          simp [slash_not_blank] at this

theorem IsTail.of_append_blanks {t b : Text} (tail : IsTail (t ++ b))
    (blank : ∀ c ∈ b, c.isBlank = true) : IsTail t := by
  rcases tail with gap | ⟨gap, body, isGap, noBreak, split⟩
  · exact gap.of_append_blanks rfl blank
  · rcases List.append_eq_append_iff.1 split with ⟨more, rfl, later⟩ | ⟨more, rfl, later⟩
    · exact isGap.of_append_blanks rfl fun c mem => blank c (by simp [later, mem])
    · match more, later with
      | [], later => simpa using isGap.tail
      | [_], later =>
        rw [List.cons_append, List.cons.injEq, List.nil_append] at later
        exact (nil_of_blank_slash blank later.2.symm).elim
      | _ :: _ :: more, later =>
        simp only [List.cons_append, List.cons.injEq] at later
        obtain ⟨rfl, rfl, rfl⟩ := later
        exact .inr ⟨gap, more, isGap, fun mem => noBreak (List.mem_append_left _ mem), rfl⟩

theorem IsTail.isGap {t : Text} (tail : IsTail t)
    (ends : t.getLast? = some (CodePoint.ofChar '\n')) : IsGap t := by
  rcases tail with gap | ⟨gap, body, isGap, noBreak, rfl⟩
  · exact gap
  · exfalso
    rw [List.getLast?_append, List.getLast?_cons_cons, List.getLast?_cons, Option.some_or,
      Option.some.injEq] at ends
    cases last : body.getLast? with
    | none =>
      rw [last] at ends
      exact absurd ends (by decide)
    | some c =>
      rw [last, Option.getD_some] at ends
      subst ends
      exact noBreak (List.mem_of_getLast? last)

theorem dropWhile_noBreak {body : Text} (noBreak : CodePoint.ofChar '\n' ∉ body) (s : Text) :
    ((body ++ CodePoint.ofChar '\n' :: s).dropWhile fun c => decide (c ≠ CodePoint.ofChar '\n'))
      = CodePoint.ofChar '\n' :: s := by
  rw [List.dropWhile_append_of_pos]
  · simp
  · intro c mem
    simpa using fun same : c = CodePoint.ofChar '\n' => noBreak (same ▸ mem)

theorem IsGap.of_line {body s : Text} (noBreak : CodePoint.ofChar '\n' ∉ body)
    (gap : IsGap (CodePoint.ofChar '/' :: CodePoint.ofChar '/' ::
      (body ++ CodePoint.ofChar '\n' :: s))) : IsGap s := by
  generalize whole : CodePoint.ofChar '/' :: CodePoint.ofChar '/' ::
    (body ++ CodePoint.ofChar '\n' :: s) = g at gap
  cases gap with
  | nil => simp at whole
  | blank isBlank =>
    rw [← (List.cons.inj whole).1, slash_not_blank] at isBlank
    simp at isBlank
  | @line other t none rest =>
    simp only [List.cons.injEq, true_and] at whole
    have rests := dropWhile_noBreak noBreak s
    rw [whole, dropWhile_noBreak none] at rests
    rwa [← (List.cons.inj rests).2]
  | block =>
    simp only [List.cons.injEq, true_and] at whole
    exact absurd whole.1 (by decide)

theorem IsGap.of_block {body s : Text} (closes : closingLength? 0 body = some body.length)
    (gap : IsGap (CodePoint.ofChar '/' :: CodePoint.ofChar '*' :: (body ++ s))) : IsGap s := by
  generalize whole : CodePoint.ofChar '/' :: CodePoint.ofChar '*' :: (body ++ s) = g at gap
  cases gap with
  | nil => simp at whole
  | blank isBlank =>
    rw [← (List.cons.inj whole).1, slash_not_blank] at isBlank
    simp at isBlank
  | line =>
    simp only [List.cons.injEq, true_and] at whole
    exact absurd whole.1 (by decide)
  | @block other t closed rest =>
    simp only [List.cons.injEq, true_and] at whole
    have length := closingLength?_append s closes
    rw [whole, closingLength?_append t closed, Option.some.injEq] at length
    rwa [((List.append_inj whole) length.symm).2]

theorem IsGap.of_append {g h : Text} (front : IsGap g) (gap : IsGap (g ++ h)) : IsGap h := by
  induction front with
  | nil => exact gap
  | blank isBlank _ ih => exact ih (gap.of_cons_blank isBlank)
  | line noBreak _ ih => exact ih (IsGap.of_line noBreak (by simpa using gap))
  | block closes _ ih => exact ih (IsGap.of_block closes (by simpa using gap))

end JavaUnits.Token
