import JavaUnits.Proofs.Scan

/-!
Texts without escape markers, which decoding leaves as they are. A text that does not end in a
backslash can be put in front of another without making a marker, so what a scan takes apart may be
put together in another way.
-/

namespace JavaUnits.Text

open CodePoint

/-- A text in which no unicode escape begins. -/
def IsPlain (s : Text) : Prop :=
  Escape.firstMarker? [] s = none

instance (s : Text) : Decidable s.IsPlain :=
  inferInstanceAs (Decidable (_ = _))

variable {s t : Text}

theorem firstMarker?_passed (passed : Text) (s : Text) :
    Escape.firstMarker? passed s = none ↔ s.IsPlain := by
  rw [IsPlain]
  generalize ([] : Text) = other
  fun_induction Escape.firstMarker? passed s generalizing other with
  | case1 => simp [Escape.firstMarker?]
  | case2 => simp [Escape.firstMarker?]
  | case3 passed s => simp [Escape.firstMarker?]
  | case4 passed d s noMarker ih => simpa [Escape.firstMarker?, noMarker] using ih _
  | case5 passed c d s plain ih => simpa [Escape.firstMarker?, plain] using ih _

@[simp] theorem isPlain_nil : IsPlain [] := rfl

@[simp] theorem isPlain_singleton (c : CodePoint) : IsPlain [c] := rfl

theorem isPlain_cons {c : CodePoint} (other : c ≠ ofChar '\\') :
    IsPlain (c :: s) ↔ s.IsPlain := by
  cases s with
  | nil => simp
  | cons d s =>
    rw [IsPlain, Escape.firstMarker?, if_neg other]
    exact firstMarker?_passed _ _

theorem isPlain_backslash {d : CodePoint} :
    IsPlain (ofChar '\\' :: d :: s) ↔ d ≠ ofChar 'u' ∧ s.IsPlain := by
  rw [IsPlain, Escape.firstMarker?, if_pos rfl]
  by_cases marker : d = ofChar 'u'
  · simp [marker]
  · rw [if_neg marker]
    simp [marker, firstMarker?_passed]

theorem isPlain_append {s t : Text} (last : s.getLast? ≠ some (ofChar '\\')) :
    IsPlain (s ++ t) ↔ s.IsPlain ∧ t.IsPlain := by
  match s with
  | [] => simp
  | [c] =>
    have other : c ≠ ofChar '\\' := by simpa using last
    simp [isPlain_cons other]
  | c :: d :: s =>
    rw [List.getLast?_cons_cons] at last
    by_cases backslash : c = ofChar '\\'
    · subst backslash
      have last : s.getLast? ≠ some (ofChar '\\') := by
        cases s with
        | nil => simp
        | cons e s => rwa [List.getLast?_cons_cons] at last
      simp only [List.cons_append, isPlain_backslash, isPlain_append (t := t) last, and_assoc]
    · have ih := isPlain_append (s := d :: s) (t := t) last
      simp only [List.cons_append, isPlain_cons backslash] at ih ⊢
      exact ih

theorem IsPlain.of_append {s t : Text} (plain : IsPlain (s ++ t)) : s.IsPlain := by
  match s with
  | [] => simp
  | [c] => simp
  | c :: d :: s =>
    by_cases backslash : c = ofChar '\\'
    · subst backslash
      simp only [List.cons_append, isPlain_backslash] at plain ⊢
      exact ⟨plain.1, of_append plain.2⟩
    · simp only [List.cons_append, isPlain_cons backslash] at plain ⊢
      exact of_append (s := d :: s) (t := t) plain

theorem IsPlain.append_singleton {s : Text} {d : CodePoint} (plain : s.IsPlain)
    (other : d ≠ ofChar 'u') :
    IsPlain (s ++ [d]) := by
  match s with
  | [] => simp
  | [c] =>
    by_cases backslash : c = ofChar '\\'
    · subst backslash
      exact isPlain_backslash.2 ⟨other, isPlain_nil⟩
    · simp [isPlain_cons backslash]
  | c :: e :: s =>
    by_cases backslash : c = ofChar '\\'
    · subst backslash
      simp only [List.cons_append, isPlain_backslash] at plain ⊢
      exact ⟨plain.1, append_singleton plain.2 other⟩
    · simp only [List.cons_append, isPlain_cons backslash] at plain ⊢
      exact append_singleton (s := e :: s) plain other

theorem isPlain_of_noBackslash (none : ofChar '\\' ∉ s) : s.IsPlain := by
  induction s with
  | nil => simp
  | cons c s ih =>
    simp only [List.mem_cons, not_or] at none
    rw [isPlain_cons (Ne.symm none.1)]
    exact ih none.2

theorem decodeEscapes_of_isPlain (plain : s.IsPlain) : s.decodeEscapes = .ok s := by
  rw [decodeEscapes, Escape.decode]
  split
  · rename_i decoded read
    split at read
    · simpa using read.symm
    · rename_i before after marker
      rw [plain] at marker
      simp at marker
  all_goals
    rename_i read
    split at read
    · simp at read
    · rename_i marker
      rw [plain] at marker
      simp at marker

end JavaUnits.Text

namespace JavaUnits

open CodePoint Text

def Piece.IsPlain (p : Piece) : Prop :=
  p.gap.IsPlain ∧ p.lexeme.IsPlain

namespace Token

/-- A gap ends in a blank, or in the slash that closes a comment. -/
theorem IsGap.last_ne {g : Text} {c : CodePoint} (gap : IsGap g) (ink : c.isBlank = false)
    (other : ofChar '/' ≠ c) : g.getLast? ≠ some c := by
  induction gap with
  | nil => simp
  | @blank d s blank _ ih =>
    cases s with
    | nil =>
      rw [List.getLast?_singleton]
      rintro ⟨rfl⟩
      rw [blank] at ink
      cases ink
    | cons e s => rwa [List.getLast?_cons_cons]
  | @line body s noBreak _ ih =>
    cases s with
    | nil =>
      simp only [← List.cons_append, List.getLast?_concat]
      rintro ⟨rfl⟩
      exact absurd ink (by decide)
    | cons e s =>
      rw [← List.cons_append, ← List.cons_append, List.getLast?_append, List.getLast?_cons_cons]
      simpa [List.getLast?_cons] using ih
  | @block body s closes _ ih =>
    cases s with
    | nil =>
      have last := closingLength?_getLast closes (by simp)
      have more : body ≠ [] := by
        rintro rfl
        simp at last
      rw [List.append_nil, List.getLast?_cons, List.getLast?_cons, last]
      exact fun same => other (Option.some.inj same)
    | cons e s =>
      rw [← List.cons_append, ← List.cons_append, List.getLast?_append]
      simpa [List.getLast?_cons] using ih

theorem IsGap.last {g : Text} (gap : IsGap g) : g.getLast? ≠ some (ofChar '\\') :=
  gap.last_ne (by decide) (by decide)

end Token

namespace Scan

theorem isPlain_source {ps : List Piece} {s : Text} (fits : Fits ps s) :
    (source ps ++ s).IsPlain ↔ (∀ p ∈ ps, p.IsPlain) ∧ s.IsPlain := by
  induction ps with
  | nil => simp
  | cons p ps ih =>
    obtain ⟨gap, lex, rest⟩ := fits
    have last : p.lexeme.getLast? ≠ some (ofChar '\\') := by
      intro backslash
      have ink := lex.last backslash
      simp [show (ofChar '\\').isInk = false by decide] at ink
    rw [source_cons, List.append_assoc, List.append_assoc, isPlain_append gap.last,
      isPlain_append last, ih rest]
    simp only [List.forall_mem_cons, Piece.IsPlain, and_assoc]

theorem run_of_tokenize {s : Text} {ts : List Token} (plain : s.IsPlain)
    (read : tokenize s = .ok ts) : ∃ ps tail, run s = (ps, .done tail) ∧ ts = tokens ps := by
  rw [tokenize, decodeEscapes_of_isPlain plain, ok_bind] at read
  rcases ran : run s with ⟨ps, ending⟩
  rw [ran] at read
  cases ending with
  | done tail => exact ⟨ps, tail, rfl, (Except.ok.inj read).symm⟩
  | stuck => cases read

end Scan

end JavaUnits
