import Mathlib.Data.List.Lex
import JavaUnits.Path
import JavaUnits.Text

/-!
The order of texts by code points: it is total, so that sorted texts with the same members are the
same, and sorting twice is sorting once.
-/

namespace JavaUnits

theorem CodePoint.eq_of_val {c d : CodePoint} (same : c.val = d.val) : c = d := by
  cases c
  cases d
  simpa using same

namespace Text

variable {s t u : Text}

theorem lt_irrefl (s : Text) : lt s s = false := by
  induction s with
  | nil => rfl
  | cons c s ih => simp [lt, ih]

theorem lt_trans (first : lt s t = true) (second : lt t u = true) : lt s u = true := by
  induction s generalizing t u with
  | nil =>
    match t, u with
    | _ :: _, _ :: _ => rfl
  | cons c s ih =>
    match t, u with
    | d :: t, e :: u =>
      simp only [lt, Bool.or_eq_true, decide_eq_true_eq, Bool.and_eq_true, beq_iff_eq] at *
      rcases first with less | ⟨same, first⟩
      · left
        omega
      · rcases second with less | ⟨also, second⟩
        · left
          omega
        · exact .inr ⟨by omega, ih first second⟩

theorem lt_trichotomy (s t : Text) : lt s t = true ∨ s = t ∨ lt t s = true := by
  induction s generalizing t with
  | nil =>
    cases t with
    | nil => simp
    | cons d t => simp [lt]
  | cons c s ih =>
    cases t with
    | nil => simp [lt]
    | cons d t =>
      simp only [lt, Bool.or_eq_true, decide_eq_true_eq, Bool.and_eq_true, beq_iff_eq,
        List.cons.injEq]
      rcases Nat.lt_trichotomy c.val d.val with less | same | more
      · exact .inl (.inl less)
      · have same' : c = d := CodePoint.eq_of_val same
        rcases ih t with less | rfl | more
        · exact .inl (.inr ⟨same, less⟩)
        · exact .inr (.inl ⟨same', rfl⟩)
        · exact .inr (.inr (.inr ⟨same.symm, more⟩))
      · exact .inr (.inr (.inl more))

theorem le_total (s t : Text) : (le s t || le t s) = true := by
  rw [Bool.or_eq_true, le, le, Bool.not_eq_true', Bool.not_eq_true']
  by_cases less : lt t s = true
  · right
    rw [Bool.eq_false_iff]
    intro more
    have := lt_trans less more
    simp [lt_irrefl] at this
  · exact .inl (by simpa using less)

theorem le_trans (first : le s t = true) (second : le t u = true) : le s u = true := by
  rw [le, Bool.not_eq_true', Bool.eq_false_iff] at *
  intro more
  rcases lt_trichotomy s t with less | rfl | less
  · exact second (lt_trans more less)
  · exact second more
  · exact first less

theorem le_antisymm (first : le s t = true) (second : le t s = true) : s = t := by
  rw [le, Bool.not_eq_true', Bool.eq_false_iff] at *
  rcases lt_trichotomy s t with less | same | less
  · exact absurd less second
  · exact same
  · exact absurd less first

theorem pairwise_sort (ts : List Text) : (sort ts).Pairwise fun s t => le s t = true := by
  apply List.pairwise_mergeSort
  · exact fun _ _ _ => le_trans
  · exact le_total

theorem sort_of_pairwise {ts : List Text} (sorted : ts.Pairwise fun s t => le s t = true) :
    sort ts = ts :=
  List.mergeSort_of_pairwise sorted

theorem sort_sort (ts : List Text) : sort (sort ts) = sort ts :=
  sort_of_pairwise (pairwise_sort ts)

theorem perm_sort (ts : List Text) : (sort ts).Perm ts :=
  List.mergeSort_perm ts le

end Text

theorem nodup_eraseDups {α : Type} [BEq α] [LawfulBEq α] (as : List α) : as.eraseDups.Nodup := by
  induction length : as.length using Nat.strongRecOn generalizing as with
  | ind n ih =>
    cases as with
    | nil => simp
    | cons a as =>
      rw [List.eraseDups_cons, List.nodup_cons, List.mem_eraseDups]
      refine ⟨by simp, ih _ ?_ _ rfl⟩
      rw [← length, List.length_cons]
      exact Nat.lt_succ_of_le (List.length_filter_le _ _)

theorem eraseDups_of_nodup {α : Type} [BEq α] [LawfulBEq α] {as : List α} (nodup : as.Nodup) :
    as.eraseDups = as := by
  induction as with
  | nil => rfl
  | cons a as ih =>
    rw [List.nodup_cons] at nodup
    rw [List.eraseDups_cons, List.filter_eq_self.2 fun b mem => ?_, ih nodup.2]
    rw [Bool.not_eq_true', beq_eq_false_iff_ne]
    rintro rfl
    exact nodup.1 mem

/-- What is sorted without repetition is told by its members. -/
theorem Text.sort_eraseDups_congr {ss ts : List Text} (same : ∀ t, t ∈ ss ↔ t ∈ ts) :
    sort ss.eraseDups = sort ts.eraseDups := by
  have perm : ss.eraseDups.Perm ts.eraseDups :=
    (List.perm_ext_iff_of_nodup (nodup_eraseDups ss) (nodup_eraseDups ts)).2 fun t => by
      rw [List.mem_eraseDups, List.mem_eraseDups, same]
  exact ((perm_sort _).trans (perm.trans (perm_sort _).symm)).eq_of_pairwise
    (fun _ _ _ _ => le_antisymm) (pairwise_sort _) (pairwise_sort _)

/-! ## The order of paths -/

namespace Path

instance : Std.Trichotomous fun s t : Text => s.lt t = true where
  trichotomous s t less more := by
    rcases Text.lt_trichotomy s t with first | same | second
    · exact absurd first less
    · exact same
    · exact absurd second more

instance : Std.Asymm fun s t : Text => s.lt t = true where
  asymm s t less more := by
    have := Text.lt_trans less more
    simp [Text.lt_irrefl] at this

instance : IsOrderConnected Text fun s t : Text => s.lt t = true where
  conn s t u less := by
    rcases Text.lt_trichotomy s t with first | rfl | second
    · exact .inl first
    · exact .inr less
    · exact .inr (Text.lt_trans second less)

theorem partsLt_iff {as bs : List Text} :
    partsLt as bs = true ↔ List.Lex (fun s t : Text => s.lt t = true) as bs := by
  induction as generalizing bs with
  | nil => cases bs <;> simp [partsLt]
  | cons a as ih =>
    cases bs with
    | nil => simp [partsLt]
    | cons b bs =>
      rw [partsLt, Bool.or_eq_true, Bool.and_eq_true, beq_iff_eq, ih]
      constructor
      · rintro (less | ⟨rfl, later⟩)
        · exact .rel less
        · exact .cons later
      · intro before
        cases before with
        | rel less => exact .inl less
        | cons later => exact .inr ⟨rfl, later⟩

variable {p q r : Path}

theorem le_iff : p.le q = true ↔ p.slashes < q.slashes ∨
    p.slashes = q.slashes ∧ ¬ List.Lex (fun s t : Text => s.lt t = true) q.parts p.parts := by
  rw [le]
  split
  · rename_i same
    rw [Bool.not_eq_true', ← Bool.not_eq_true, partsLt_iff]
    simp [same]
  · rename_i other
    simp [other]

theorem le_total (p q : Path) : (p.le q || q.le p) = true := by
  rw [Bool.or_eq_true, le_iff, le_iff]
  rcases Nat.lt_trichotomy p.slashes q.slashes with less | same | more
  · exact .inl (.inl less)
  · by_cases later : List.Lex (fun s t : Text => s.lt t = true) q.parts p.parts
    · exact .inr (.inr ⟨same.symm, asymm_of _ later⟩)
    · exact .inl (.inr ⟨same, later⟩)
  · exact .inr (.inl more)

theorem le_trans (first : p.le q = true) (second : q.le r = true) : p.le r = true := by
  rw [le_iff] at *
  rcases first with less | ⟨same, first⟩ <;> rcases second with less' | ⟨same', second⟩
  · exact .inl (less.trans less')
  · exact .inl (same' ▸ less)
  · exact .inl (same ▸ less')
  · refine .inr ⟨same.trans same', fun less => ?_⟩
    rcases IsOrderConnected.conn _ q.parts _ less with front | back
    · exact second front
    · exact first back

theorem le_antisymm (first : p.le q = true) (second : q.le p = true) : p = q := by
  rw [le_iff] at *
  obtain ⟨slashes, parts⟩ := p
  obtain ⟨slashes', parts'⟩ := q
  rcases first with less | ⟨rfl, first⟩ <;> rcases second with less' | ⟨same, second⟩
  · exact absurd less' (by simpa using less.le)
  · exact absurd same less.ne'
  · exact absurd less' (by simp)
  · rw [Std.Trichotomous.trichotomous parts parts' second first]

theorem pairwise_sort (ps : List Path) : (sort ps).Pairwise fun p q => p.le q = true := by
  apply List.pairwise_mergeSort
  · exact fun _ _ _ => le_trans
  · exact le_total

theorem sort_of_perm {ps qs : List Path} (same : ps.Perm qs)
    (sorted : qs.Pairwise fun p q => p.le q = true) : sort ps = qs :=
  ((List.mergeSort_perm ps le).trans same).eq_of_pairwise (fun _ _ _ _ => le_antisymm)
    (pairwise_sort ps) sorted

/-- Paths in order, each once, are given by which they are. -/
theorem eq_of_mem_iff {ps qs : List Path} (nodup : ps.Nodup) (nodup' : qs.Nodup)
    (sorted : ps.Pairwise fun p q => p.le q = true) (sorted' : qs.Pairwise fun p q => p.le q = true)
    (same : ∀ p, p ∈ ps ↔ p ∈ qs) : ps = qs :=
  ((List.perm_ext_iff_of_nodup nodup nodup').2 same).eq_of_pairwise
    (fun _ _ _ _ => le_antisymm) sorted sorted'

end Path

end JavaUnits
