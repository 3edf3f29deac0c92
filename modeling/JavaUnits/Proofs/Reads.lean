import JavaUnits.Proofs.Escape
import JavaUnits.Proofs.Group

/-!
Which tokens a text without escapes reads as, whatever their places. Texts that end with a line
break may be put before others, and blanks at either end do not matter.
-/

namespace JavaUnits.Text

open CodePoint Token Scan

/-- Whether the text has no escapes and a scan of it gives just these tokens. -/
def Reads (s : Text) (ts : List Token) : Prop :=
  ∃ ps t, s = source ps ++ t ∧ Fits ps t ∧ IsTail t ∧ s.IsPlain ∧ ps.map Piece.token = ts

variable {s t b : Text} {ts us : List Token}

theorem Reads.run (reads : Reads s ts) :
    ∃ ps t, Scan.run s = (ps, .done t) ∧ ps.map Piece.token = ts := by
  obtain ⟨ps, t, rfl, fits, tail, -, tokens⟩ := reads
  refine ⟨ps, t, ?_, tokens⟩
  rw [run_of_fits fits, run_tail tail, List.append_nil]

theorem Reads.isPlain (reads : Reads s ts) : s.IsPlain := by
  obtain ⟨ps, t, -, -, -, plain, -⟩ := reads
  exact plain

theorem reads_of_run {ps : List Piece} (plain : s.IsPlain) (ran : Scan.run s = (ps, .done t)) :
    Reads s (ps.map Piece.token) := by
  have whole := source_run s
  rw [ran] at whole
  exact ⟨ps, t, whole.symm, fits_of_run ran, isTail_of_run ran, plain, rfl⟩

theorem Reads.unique (reads : Reads s ts) (other : Reads s us) : ts = us := by
  obtain ⟨ps, t, ran, rfl⟩ := reads.run
  obtain ⟨qs, u, also, rfl⟩ := other.run
  rw [ran, Prod.mk.injEq] at also
  rw [also.1]

theorem tokenize_of_reads (reads : Reads s ts) :
    ∃ tokens, tokenize s = .ok tokens ∧ tokens.map bare = ts := by
  obtain ⟨ps, t, ran, rfl⟩ := reads.run
  refine ⟨tokens ps, ?_, bare_tokensFrom .start ps⟩
  rw [tokenize, decodeEscapes_of_isPlain reads.isPlain, ok_bind, ran]
  rfl

theorem reads_of_tokenize {tokens : List Token} (plain : s.IsPlain)
    (read : tokenize s = .ok tokens) : Reads s (tokens.map bare) := by
  obtain ⟨ps, t, ran, rfl⟩ := run_of_tokenize plain read
  rw [Scan.tokens, bare_tokensFrom]
  exact reads_of_run plain ran

theorem reads_tail (tail : IsTail s) (plain : s.IsPlain) : Reads s [] :=
  ⟨[], s, rfl, trivial, tail, plain, rfl⟩

theorem reads_source {ps : List Piece} (fits : Fits ps t) (plain : ∀ p ∈ ps, p.IsPlain)
    (behind : Reads t []) : Reads (source ps ++ t) (ps.map Piece.token) := by
  refine ⟨ps, t, rfl, fits, ?_, (isPlain_source fits).2 ⟨plain, behind.isPlain⟩, rfl⟩
  obtain ⟨qs, u, rfl, -, tail, -, none⟩ := behind
  obtain rfl := List.map_eq_nil_iff.1 none
  exact tail

theorem lingers_of_isBlank {c : CodePoint} (blank : c.isBlank = true) : c.lingers = false := by
  have marks : (Text.ofString "_lL").contains c = false :=
    @contains_of_class CodePoint.isBlank _ _ (by decide) blank
  rw [lingers, marks, isDigit_of_isBlank blank]
  rfl

theorem behind_break (kind : Kind) (s t : Text) : Behind kind s (ofChar '\n' :: t) := by
  refine ⟨fun _ goes => ?_, fun _ mark => ?_, fun _ mark => ?_⟩
  · have : (ofChar '\n').continuesName = false := continuesName_of_isBlank (by decide)
    simp [continuesIn, this] at goes
  · rw [headIn_cons] at mark
    exact absurd mark (by decide)
  · rw [headIn_cons] at mark
    exact absurd mark (by decide)

/-- Blanks behind pieces, if any, may give way to a line break. -/
theorem fits_break {ps : List Piece} (fits : Fits ps b) (blank : ∀ c ∈ b, c.isBlank = true)
    (t : Text) : Fits ps (ofChar '\n' :: t) := by
  apply fits.exchange
  · apply Exchange.ends _ _ (by decide)
    intro d head
    exact lingers_of_isBlank (blank d (List.mem_of_head? head))
  · exact fun p _ => behind_break p.kind b t

theorem isPlain_of_append_blank (plain : (b ++ s).IsPlain) (blank : ∀ c ∈ b, c.isBlank = true) :
    s.IsPlain :=
  ((isPlain_append (IsGap.of_blank blank).last).1 plain).2

theorem Reads.of_append_blank (reads : Reads (b ++ s) ts) (blank : ∀ c ∈ b, c.isBlank = true) :
    Reads s ts := by
  obtain ⟨ps, t, whole, fits, tail, plain, rfl⟩ := reads
  have plainLater := isPlain_of_append_blank plain blank
  cases ps with
  | nil =>
    rw [source_nil, List.nil_append] at whole
    subst whole
    exact reads_tail (tail.of_append_blank blank) plainLater
  | cons p ps =>
    obtain ⟨gap, lex, rest⟩ := fits
    rw [source_cons, List.append_assoc] at whole
    rcases List.append_eq_append_iff.1 whole with ⟨more, gapEq, rfl⟩ | ⟨more, rfl, later⟩
    · rw [gapEq] at gap
      refine ⟨{ p with gap := more } :: ps, t, ?_, ⟨gap.of_append_blank blank, lex, rest⟩, tail,
        plainLater, rfl⟩
      simp [source_cons]
    · cases more with
      | nil =>
        refine ⟨{ p with gap := [] } :: ps, t, ?_, ⟨.nil, lex, rest⟩, tail, plainLater, rfl⟩
        rw [List.nil_append] at later
        rw [source_cons, List.nil_append, later]
      | cons c more =>
        exfalso
        obtain ⟨d, u, lexeme, visible⟩ := lex.head
        simp only [lexeme, List.cons_append, List.cons.injEq] at later
        have := blank c (by simp)
        rw [← later.1, visible] at this
        simp at this

theorem tail_of_append_blanks {ps : List Piece} (fits : Fits ps t) (more : ps ≠ [])
    (whole : s ++ b = source ps ++ t) (blank : ∀ c ∈ b, c.isBlank = true) :
    ∃ u, s = source ps ++ u ∧ t = u ++ b := by
  rcases List.append_eq_append_iff.1 whole with ⟨u, sourceEq, rfl⟩ | ⟨u, rfl, later⟩
  · cases u with
    | nil => exact ⟨[], by simpa using sourceEq.symm, rfl⟩
    | cons c u =>
      exfalso
      rcases List.eq_nil_or_concat ps with rfl | ⟨init, l, rfl⟩
      · exact more rfl
      · rw [List.concat_eq_append] at fits sourceEq
        obtain ⟨-, -, lex, -⟩ := fits_append.1 fits
        obtain ⟨d, last⟩ := Option.isSome_iff_exists.1 (List.getLast?_isSome.2 lex.ne_nil)
        have ink := lex.last last
        have ends := congrArg List.getLast? sourceEq
        rw [source_append, source_cons, source_nil, List.append_nil, List.getLast?_append,
          List.getLast?_append, last, List.getLast?_append, List.getLast?_cons,
          Option.some_or, Option.some_or, Option.some_or, Option.some.injEq] at ends
        have mem : d ∈ c :: u := by
          rw [ends]
          apply List.mem_of_getLast?
          rw [List.getLast?_cons]
        have := blank d (List.mem_append_left _ mem)
        simp [isInk, this] at ink
  · exact ⟨u, rfl, later⟩

theorem IsPlain.append_break (plain : s.IsPlain) : (s ++ [ofChar '\n']).IsPlain :=
  plain.append_singleton (by decide)

/-- Blanks behind a text make no difference when its last line is ended. -/
theorem Reads.append_break (reads : Reads (s ++ b) ts) (blank : ∀ c ∈ b, c.isBlank = true) :
    Reads (s ++ [ofChar '\n']) ts := by
  obtain ⟨ps, t, whole, fits, tail, plain, rfl⟩ := reads
  have plain := plain.of_append.append_break
  by_cases none : ps = []
  · subst none
    rw [source_nil, List.nil_append] at whole
    subst whole
    exact reads_tail (tail.of_append_blanks blank).append_break.tail plain
  · obtain ⟨u, rfl, rfl⟩ := tail_of_append_blanks fits none whole blank
    have gap := (tail.of_append_blanks blank).append_break
    refine ⟨ps, u ++ [ofChar '\n'], by simp, ?_, gap.tail, plain, rfl⟩
    cases u with
    | nil => exact fits_break fits blank []
    | cons c u => exact fits.exchange_same tail.head_joins _

/-! ## Texts that may stand before others -/

/-- Whether the text has no escapes and a scan gives just these tokens whatever text follows. -/
def Opens (s : Text) (ts : List Token) : Prop :=
  ∃ ps g, s = source ps ++ g ∧ IsGap g ∧ (∀ t, Fits ps (g ++ t)) ∧
    s.IsPlain ∧ s.getLast? ≠ some (ofChar '\\') ∧ ps.map Piece.token = ts

theorem opens_gap {g : Text} (gap : IsGap g) (plain : g.IsPlain) : Opens g [] :=
  ⟨[], g, rfl, gap, fun _ => trivial, plain, gap.last, rfl⟩

theorem source_last {ps : List Piece} (fits : Fits ps s) :
    (source ps).getLast? ≠ some (ofChar '\\') := by
  rcases List.eq_nil_or_concat ps with rfl | ⟨front, p, rfl⟩
  · simp
  · rw [List.concat_eq_append] at fits ⊢
    obtain ⟨-, -, lex, -⟩ := fits_append.1 fits
    rw [source_append, source_cons, source_nil, List.append_nil]
    obtain ⟨c, last⟩ := Option.isSome_iff_exists.1 (List.getLast?_isSome.2 lex.ne_nil)
    have ink := lex.last last
    rw [List.getLast?_append, List.getLast?_append, last, Option.some_or, Option.some_or]
    rintro ⟨rfl⟩
    simp [isInk] at ink

theorem opens_source {ps : List Piece} (fits : ∀ t, Fits ps t) (plain : ∀ p ∈ ps, p.IsPlain) :
    Opens (source ps) (ps.map Piece.token) := by
  have whole := (isPlain_source (fits [])).2 ⟨plain, isPlain_nil⟩
  rw [List.append_nil] at whole
  exact ⟨ps, [], by simp, .nil, fits, whole, source_last (fits []), rfl⟩

theorem Opens.append_reads (opens : Opens s ts) (reads : Reads t us) :
    Reads (s ++ t) (ts ++ us) := by
  obtain ⟨ps, g, whole, gap, fits, plain, last, rfl⟩ := opens
  obtain ⟨qs, u, rfl, fitsLater, tail, plainLater, rfl⟩ := reads
  have plain := (isPlain_append last).2 ⟨plain, plainLater⟩
  subst whole
  cases qs with
  | nil => exact ⟨ps, g ++ u, by simp, fits u, gap.append_tail tail, plain, by simp⟩
  | cons q qs =>
    refine ⟨ps ++ { q with gap := g ++ q.gap } :: qs, u, by simp [source_append, source_cons], ?_,
      tail, plain, by simp [Piece.token]⟩
    rw [fits_append, source_cons, List.append_assoc, List.append_assoc]
    exact ⟨fits _, fitsLater.regap (gap.append fitsLater.1)⟩

theorem getLast?_append_ne {x : CodePoint} (front : s.getLast? ≠ some x)
    (back : t.getLast? ≠ some x) : (s ++ t).getLast? ≠ some x := by
  rw [List.getLast?_append]
  cases last : t.getLast? with
  | none => simpa using front
  | some c => simpa [last] using back

theorem isPlain_flatMap {α : Type} {f : α → Text} {xs : List α}
    (plain : ∀ x ∈ xs, (f x).IsPlain ∧ (f x).getLast? ≠ some (ofChar '\\')) :
    IsPlain (xs.flatMap f) ∧ (xs.flatMap f).getLast? ≠ some (ofChar '\\') := by
  induction xs with
  | nil => exact ⟨isPlain_nil, by simp⟩
  | cons x xs ih =>
    rw [List.forall_mem_cons] at plain
    obtain ⟨later, last⟩ := ih plain.2
    rw [List.flatMap_cons]
    exact ⟨(isPlain_append plain.1.2).2 ⟨plain.1.1, later⟩, getLast?_append_ne plain.1.2 last⟩

theorem Opens.append (opens : Opens s ts) (others : Opens t us) : Opens (s ++ t) (ts ++ us) := by
  obtain ⟨ps, g, whole, gap, fits, plain, last, rfl⟩ := opens
  obtain ⟨qs, h, wholeLater, gapLater, fitsLater, plainLater, lastLater, rfl⟩ := others
  have plain := (isPlain_append last).2 ⟨plain, plainLater⟩
  have last := getLast?_append_ne last lastLater
  subst whole wholeLater
  cases qs with
  | nil =>
    refine ⟨ps, g ++ h, by simp, gap.append gapLater, fun t => ?_, plain, last, by simp⟩
    rw [List.append_assoc]
    exact fits _
  | cons q qs =>
    refine ⟨ps ++ { q with gap := g ++ q.gap } :: qs, h, by simp [source_append, source_cons],
      gapLater, fun t => ?_, plain, last, by simp [Piece.token]⟩
    rw [fits_append, source_cons, List.append_assoc, List.append_assoc]
    exact ⟨fits _, (fitsLater t).regap (gap.append (fitsLater t).1)⟩

theorem Opens.reads (opens : Opens s ts) : Reads s ts := by
  simpa using opens.append_reads (reads_tail IsGap.nil.tail isPlain_nil)

/-- A text whose last line is ended may be put before any other. -/
theorem Reads.opens (reads : Reads (s ++ [ofChar '\n']) ts) : Opens (s ++ [ofChar '\n']) ts := by
  obtain ⟨ps, u, whole, fits, tail, plain, rfl⟩ := reads
  obtain ⟨gap, more⟩ : IsGap u ∧ u ≠ [] := by
    by_cases none : ps = []
    · subst none
      rw [source_nil, List.nil_append] at whole
      subst whole
      exact ⟨tail.isGap (by simp), by simp⟩
    · obtain ⟨w, -, rfl⟩ := tail_of_append_blanks (b := [ofChar '\n']) fits none whole
        (by simpa using (by decide : (ofChar '\n').isBlank = true))
      exact ⟨tail.isGap (by simp), by simp⟩
  refine ⟨ps, u, whole, gap, fun t => ?_, plain, by rw [List.getLast?_concat]; decide, rfl⟩
  rw [← List.append_nil u] at fits
  exact fits.exchange_gap gap more t

end JavaUnits.Text
