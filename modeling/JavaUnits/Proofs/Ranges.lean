import JavaUnits.CodePoint.Blank
import JavaUnits.CodePoint.Digit
import JavaUnits.CodePoint.Name

/-!
Classes of code points that have no member in common. Two tables of ranges are apart when every
range of one lies beside every range of the other, which is checked on the tables.
-/

namespace JavaUnits.CodePoint

theorem within_range {c : CodePoint} {ranges : List (Nat × Nat)} (inside : c.within ranges = true) :
    ∃ range ∈ ranges, range.1 ≤ c.val ∧ c.val ≤ range.2 := by
  induction ranges with
  | nil => simp [within] at inside
  | cons range ranges inductionHypothesis =>
    obtain ⟨low, high⟩ := range
    simp only [within] at inside
    split at inside
    · simp at inside
    · split at inside
      · exact ⟨(low, high), by simp, by omega, by omega⟩
      · obtain ⟨found, mem, bounds⟩ := inductionHypothesis inside
        exact ⟨found, List.mem_cons_of_mem _ mem, bounds⟩

/-- Whether no range of one table meets a range of the other. -/
def rangesApart (first second : List (Nat × Nat)) : Bool :=
  first.all fun p => second.all fun q => p.2 < q.1 || q.2 < p.1

theorem not_within_of_rangesApart {c : CodePoint} {first second : List (Nat × Nat)}
    (apart : rangesApart first second = true) (inside : c.within first = true) :
    c.within second = false := by
  rw [Bool.eq_false_iff]
  intro other
  obtain ⟨p, pMem, pBounds⟩ := within_range inside
  obtain ⟨q, qMem, qBounds⟩ := within_range other
  have beside := List.all_eq_true.1 (List.all_eq_true.1 apart p pMem) q qMem
  simp only [Bool.or_eq_true, decide_eq_true_eq] at beside
  omega

theorem continuesName_of_isBlank {c : CodePoint} (blank : c.isBlank = true) :
    c.continuesName = false := by
  have starts := @not_within_of_rangesApart _ _ nameStarts (by decide +kernel) blank
  have extenders := @not_within_of_rangesApart _ _ nameExtenders (by decide +kernel) blank
  simp [continuesName, startsName, starts, extenders]

theorem isDigit_of_isBlank {c : CodePoint} (blank : c.isBlank = true) : c.isDigit = false := by
  have decimal := @not_within_of_rangesApart _ _ decimalDigits (by decide +kernel) blank
  have other := @not_within_of_rangesApart _ _ otherDigits (by decide +kernel) blank
  simp [isDigit, isDecimalDigit, decimal, other]

theorem isDigit_of_startsName {c : CodePoint} (starts : c.startsName = true) :
    c.isDigit = false := by
  rw [isDigit, isDecimalDigit, not_within_of_rangesApart (by decide +kernel) starts,
    not_within_of_rangesApart (by decide +kernel) starts]
  rfl

end JavaUnits.CodePoint
