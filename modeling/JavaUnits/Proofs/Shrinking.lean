import JavaUnits.Proofs.Place

/-!
What decoding does to lengths and lines. A decoded text is no longer than the text and has no more
lines, from whatever place on they are counted, unless an escape denotes a line feed or a marker is
cut off at the end of the text. So a position in the decoded text is never past the end of the text.
-/

namespace JavaUnits

open CodePoint

namespace Text.Escape

variable {s d : Text}

/-- What the escapes of a text denote, as far as it can be decoded. A marker that is cut off at the
end denotes nothing. -/
def denoted (s : Text) : List (Option CodePoint) :=
  match h : firstMarker? [] s with
  | none => []
  | some (_, after) =>
    if after.isEmpty then [none]
    else
      match value (after.take 4) with
      | .error _ => []
      | .ok c =>
        have := firstMarker?_length h
        some c :: denoted (after.drop 4)
termination_by s.length
decreasing_by
  simp only [List.length_drop]
  omega

theorem firstMarker?_split {passed before after : Text}
    (found : firstMarker? passed s = some (before, after)) :
    ∃ marker, passed.reverse ++ s = before ++ marker ++ after ∧ 2 ≤ marker.length := by
  fun_induction firstMarker? passed s with
  | case1 => cases found
  | case2 => cases found
  | case3 passed s =>
    obtain ⟨rfl, rfl⟩ := Prod.mk.inj (Option.some.inj found)
    refine ⟨ofChar '\\' :: ofChar 'u' :: s.takeWhile fun e : CodePoint => e = 'u', ?_, by simp⟩
    simp only [List.append_assoc, List.cons_append, List.takeWhile_append_dropWhile]
  | case4 passed d s plain ih => simpa using ih found
  | case5 passed c d s plain ih => simpa using ih found

theorem denoted_of_none (plain : firstMarker? [] s = none) : denoted s = [] := by
  rw [denoted]
  split
  · rfl
  · rename_i found
    rw [plain] at found
    cases found

theorem denoted_of_some {before after : Text} (found : firstMarker? [] s = some (before, after)) :
    denoted s = if after.isEmpty then [none] else
      match value (after.take 4) with
      | .error _ => []
      | .ok c => some c :: denoted (after.drop 4) := by
  rw [denoted]
  split
  · rename_i plain
    rw [found] at plain
    cases plain
  · rename_i other
    rw [found] at other
    obtain ⟨rfl, rfl⟩ := Prod.mk.inj (Option.some.inj other)
    rfl

theorem decode_cases (decoded : decode s = .ok d) :
    d = s ∨ none ∈ denoted s ∧ (∀ c ∈ d, c ∈ s) ∨
      ∃ before marker digits more c rest, s = before ++ marker ++ (digits ++ more) ∧
        d = before ++ c :: rest ∧ 2 ≤ marker.length ∧ decode more = .ok rest ∧
        denoted s = some c :: denoted more ∧ more.length < s.length := by
  rw [decode] at decoded
  split at decoded
  · exact .inl (Except.ok.inj decoded).symm
  · rename_i before after found
    have denotes := denoted_of_some found
    obtain ⟨marker, parts, long⟩ := firstMarker?_split found
    rw [List.reverse_nil, List.nil_append] at parts
    split at decoded
    · rename_i cut
      obtain rfl := Except.ok.inj decoded
      rw [if_pos cut] at denotes
      refine .inr (.inl ⟨by simp [denotes], fun c mem => ?_⟩)
      rcases List.mem_append.1 mem with mem | mem
      · rw [parts]
        exact List.mem_append_left _ (List.mem_append_left _ mem)
      · exact mem
    · rename_i more
      rw [if_neg more] at denotes
      split at decoded
      · cases decoded
      · rename_i c read
        split at decoded
        · cases decoded
        · rename_i rest goesOn
          obtain rfl := Except.ok.inj decoded
          rw [read] at denotes
          refine .inr (.inr ⟨before, marker, after.take 4, after.drop 4, c, rest, ?_, rfl, long,
            goesOn, denotes, ?_⟩)
          · rwa [List.take_append_drop]
          · rw [parts, List.length_append, List.length_append, List.length_drop]
            omega

/-- Whether no marker is cut off and no escape denotes a line feed. -/
def IsTame (s : Text) : Prop :=
  none ∉ denoted s ∧ some (ofChar '\n') ∉ denoted s

instance (s : Text) : Decidable (IsTame s) :=
  inferInstanceAs (Decidable (_ ∧ _))

/-- What follows an escape is as tame, and the escape denotes no line feed. -/
theorem IsTame.of_denotes {more : Text} {c : CodePoint} (tame : IsTame s)
    (denotes : denoted s = some c :: denoted more) : IsTame more ∧ c ≠ ofChar '\n' := by
  rw [IsTame, denotes] at tame
  refine ⟨⟨fun mem => tame.1 (List.mem_cons_of_mem _ mem),
    fun mem => tame.2 (List.mem_cons_of_mem _ mem)⟩, ?_⟩
  rintro rfl
  exact tame.2 List.mem_cons_self

/-- Every cut through a decoded text is matched by one through the text, with at least as many lines
before it and at least as much behind it. -/
theorem exists_cut (decoded : decode s = .ok d) (tame : IsTame s) {front back : Text}
    (split : d = front ++ back) :
    ∃ front' back', s = front' ++ back' ∧
      front.count (ofChar '\n') ≤ front'.count (ofChar '\n') ∧ back.length ≤ back'.length := by
  induction length : s.length using Nat.strongRecOn generalizing s d front back with
  | ind n ih =>
    rcases decode_cases decoded with rfl | ⟨cut, -⟩ |
      ⟨before, marker, digits, more, c, rest, parts, rfl, long, goesOn, denotes, shorter⟩
    · exact ⟨front, back, split, le_rfl, le_rfl⟩
    · exact absurd cut tame.1
    · obtain ⟨tame', noBreak⟩ := tame.of_denotes denotes
      have smaller : more.length < n := length ▸ shorter
      have restLength : rest.length ≤ more.length := by
        obtain ⟨front', back', parts', -, le⟩ :=
          ih _ smaller goesOn tame' (List.nil_append rest).symm rfl
        rw [parts', List.length_append]
        omega
      rcases List.append_eq_append_iff.1 split with ⟨x, rfl, later⟩ | ⟨x, rfl, rfl⟩
      · cases x with
        | nil =>
          obtain rfl : c :: rest = back := later
          refine ⟨before, marker ++ (digits ++ more), by rw [parts, List.append_assoc], by simp, ?_⟩
          simp only [List.length_cons, List.length_append]
          omega
        | cons c' x =>
          obtain ⟨rfl, rfl⟩ := List.cons.inj later
          obtain ⟨front', back', rfl, lines, behind⟩ := ih _ smaller goesOn tame' rfl rfl
          refine ⟨before ++ marker ++ (digits ++ front'), back', by rw [parts]; simp, ?_, behind⟩
          simp only [List.count_append, List.count_cons_of_ne noBreak]
          omega
      · refine ⟨front, x ++ marker ++ (digits ++ more), by rw [parts]; simp, le_rfl, ?_⟩
        simp only [List.length_cons, List.length_append]
        omega

theorem mem_decode (decoded : decode s = .ok d) {c : CodePoint} (mem : c ∈ d) :
    c ∈ s ∨ some c ∈ denoted s := by
  induction length : s.length using Nat.strongRecOn generalizing s d with
  | ind n ih =>
    rcases decode_cases decoded with rfl | ⟨-, kept⟩ |
      ⟨before, marker, digits, more, c', rest, parts, rfl, -, goesOn, denotes, shorter⟩
    · exact .inl mem
    · exact .inl (kept c mem)
    · rw [denotes, List.mem_cons, parts]
      rw [List.mem_append, List.mem_cons] at mem
      rcases mem with mem | rfl | mem
      · exact .inl (List.mem_append_left _ (List.mem_append_left _ mem))
      · exact .inr (.inl rfl)
      · rcases ih _ (length ▸ shorter) goesOn mem rfl with mem | mem
        · exact .inl (List.mem_append_right _ (List.mem_append_right _ mem))
        · exact .inr (.inr mem)

end Text.Escape

end JavaUnits
