import JavaUnits.Proofs.Lexeme

/-!
Scans of texts that are put together. A sequence of pieces fits in front of a text when a scan of
both gives the pieces back and goes on with the text. Pieces keep fitting when the text behind them
is exchanged, when gaps are changed, and when a word is put in where it does not run into another.
-/

namespace JavaUnits

open CodePoint

namespace Token

variable {kind : Kind} {lexeme s t : Text}

/-- Whether `lexeme` is what is read in front of `rest`. -/
def Lexeme (kind : Kind) (lexeme rest : Text) : Prop :=
  ∃ c u, lexeme = c :: u ∧ gapLength (c :: (u ++ rest)) = 0 ∧
    readLexeme c (u ++ rest) = .ok (kind, u.length + 1)

/-- Neither a blank nor a comment stands where a lexeme is read. -/
theorem gapLength_eq_zero_iff {c : CodePoint} {n : Nat} (read : readLexeme c s = .ok (kind, n)) :
    gapLength (c :: s) = 0 ↔
      c.isBlank = false ∧ ¬(c = CodePoint.ofChar '/' ∧ headIn "/" s = true) := by
  have noBlock : ¬(c = CodePoint.ofChar '/' ∧ s.head? = some (CodePoint.ofChar '*')) := by
    intro block
    rw [readLexeme, if_pos block] at read
    simp at read
  constructor
  · intro zero
    constructor
    · rw [Bool.eq_false_iff]
      intro blank
      rw [gapLength_blank s blank] at zero
      omega
    · rintro ⟨rfl, line⟩
      cases s with
      | nil => simp [headIn] at line
      | cons d s =>
        obtain rfl : d = CodePoint.ofChar '/' := by
          simpa [headIn, Text.ofString] using line
        have comment : commentLength? (CodePoint.ofChar '/' :: CodePoint.ofChar '/' :: s)
            = some (2 + lineLength s) := by
          simp [commentLength?]
        rw [gapLength_comment comment] at zero
        omega
  · rintro ⟨visible, noLine⟩
    have comment : commentLength? (c :: s) = none := by
      cases s with
      | nil => rfl
      | cons d s =>
        rw [commentLength?, if_neg, if_neg]
        · exact fun block => noBlock ⟨block.1, by simp [block.2]⟩
        · exact fun line => noLine ⟨line.1, by rw [line.2]; rfl⟩
    rw [gapLength, if_neg (by simp [visible]), comment]

theorem Lexeme.ne_nil (lex : Lexeme kind lexeme s) : lexeme ≠ [] := by
  obtain ⟨c, u, rfl, _⟩ := lex
  simp

theorem Lexeme.head (lex : Lexeme kind lexeme s) :
    ∃ c u, lexeme = c :: u ∧ c.isBlank = false := by
  obtain ⟨c, u, rfl, zero, read⟩ := lex
  exact ⟨c, u, rfl, ((gapLength_eq_zero_iff read).1 zero).1⟩

/-- A lexeme stays one when the text from some place behind it is exchanged. -/
theorem Lexeme.exchange {between : Text} (lex : Lexeme kind lexeme (between ++ s))
    (exchange : Exchange s t) (behind : between = [] → Behind kind s t) :
    Lexeme kind lexeme (between ++ t) := by
  obtain ⟨c, u, rfl, zero, read⟩ := lex
  rw [gapLength_eq_zero_iff read] at zero
  rw [← List.append_assoc] at read
  have after := readLexeme_exchange exchange (fun whole => behind (by
    rw [List.length_append] at whole
    exact List.length_eq_zero_iff.1 (by omega))) read (by rw [List.length_append]; omega)
  rw [List.append_assoc] at after
  refine ⟨c, u, rfl, ?_, after⟩
  rw [gapLength_eq_zero_iff after]
  refine ⟨zero.1, ?_⟩
  rintro ⟨slash, line⟩
  apply zero.2
  refine ⟨slash, ?_⟩
  cases u with
  | cons d u => exact line
  | nil =>
    cases between with
    | cons d between => exact line
    | nil =>
      -- A slash on its own is an operator, behind which no comment may begin.
      have operator : kind = .operator := by
        subst slash
        generalize one : ([] : Text).length + 1 = n at read
        cases reading read with
        | operator => rfl
        | atSign same => exact absurd same (by decide)
        | number _ starts => exact absurd starts (by decide)
        | separator separator => exact absurd separator (by decide)
        | literal quote => exact absurd quote (by decide)
        | word starts => exact absurd starts (by decide +kernel)
      exact (behind rfl).comment operator line

theorem lexeme_separator {c : CodePoint} (separator : separators.contains c = true)
    (other : c ≠ CodePoint.ofChar '.') (s : Text) : Lexeme .separator [c] s := by
  have apart : c ≠ CodePoint.ofChar '/' ∧ c ≠ CodePoint.ofChar '@' := by
    have all : ∀ d ∈ separators, d ≠ CodePoint.ofChar '/' ∧ d ≠ CodePoint.ofChar '@' := by decide
    exact all c (List.contains_iff_mem.1 separator)
  have visible : c.isBlank = false := by
    have all : ∀ d ∈ separators, d.isBlank = false := by decide
    exact all c (List.contains_iff_mem.1 separator)
  have read : readLexeme c s = .ok (.separator, 1) := by
    have dots : ¬Text.startsWith (c :: s) "..." = true := by
      simp only [Text.startsWith, Text.ofString, String.reduceToList, List.map_cons,
        List.isPrefixOf_cons_cons, Bool.and_eq_true, beq_iff_eq, not_and]
      exact fun same => absurd same.symm other
    rw [readLexeme, if_neg (fun block => apart.1 block.1), if_neg dots, if_neg apart.2,
      if_neg (fun fraction => other fraction.1), if_pos separator]
  exact ⟨c, [], rfl, (gapLength_eq_zero_iff read).2 ⟨visible, fun line => apart.1 line.1⟩, read⟩

theorem Lexeme.separator (lex : Lexeme .separator lexeme s) :
    ∃ c, lexeme = [c] ∧ separators.contains c = true := by
  obtain ⟨c, u, rfl, -, read⟩ := lex
  generalize length : u.length + 1 = n at read
  generalize isSeparator : Kind.separator = kind at read
  cases reading read with
  | separator separator => exact ⟨c, by simpa using length, separator⟩
  | operator => simp at isSeparator
  | atSign => simp at isSeparator
  | number number =>
    subst isSeparator
    simp [Kind.isNumber] at number
  | literal => simp at isSeparator
  | word =>
    have word := kindOfWord_isWord (c :: (u ++ s).takeWhile CodePoint.continuesName)
    rw [← isSeparator] at word
    simp [Kind.isWord] at word

/-- Code points that make up a name. -/
def IsName (word : Text) : Prop :=
  ∃ c u, word = c :: u ∧ c.startsName = true ∧ ∀ d ∈ u, d.continuesName = true

theorem IsName.head {word : Text} (name : IsName word) :
    ∃ c u, word = c :: u ∧ c.startsName = true := by
  obtain ⟨c, u, rfl, starts, _⟩ := name
  exact ⟨c, u, rfl, starts⟩

theorem takeWhile_name {u : Text} (name : ∀ d ∈ u, d.continuesName = true)
    (stop : continuesIn s = false) : (u ++ s).takeWhile CodePoint.continuesName = u := by
  rw [List.takeWhile_append_of_pos name]
  cases s with
  | nil => simp
  | cons c s =>
    rw [List.takeWhile_cons_of_neg]
    · simp
    · simpa [continuesIn] using stop

theorem lexeme_name (name : IsName lexeme) (stop : continuesIn s = false) :
    Lexeme (kindOfWord lexeme) lexeme s := by
  obtain ⟨c, u, rfl, starts, continues⟩ := name
  have read := readLexeme_name (u ++ s) starts
  rw [takeWhile_name continues stop, Nat.add_comm] at read
  obtain ⟨visible, slash, _⟩ := startsName_apart starts
  exact ⟨c, u, rfl, (gapLength_eq_zero_iff read).2 ⟨visible, fun line => slash line.1⟩, read⟩

theorem Lexeme.name (lex : Lexeme kind lexeme s) (word : kind.isWord = true) :
    kind = kindOfWord lexeme ∧ IsName lexeme ∧ continuesIn s = false := by
  obtain ⟨c, u, rfl, -, read⟩ := lex
  have starts : c.startsName = true := by
    generalize u.length + 1 = n at read
    cases reading read with
    | word starts => exact starts
    | operator => simp [Kind.isWord] at word
    | atSign => simp [Kind.isWord] at word
    | number number => simp [Kind.isWord_of_isNumber number] at word
    | separator => simp [Kind.isWord] at word
    | literal => simp [Kind.isWord] at word
  rw [readLexeme_name _ starts] at read
  simp only [Except.ok.injEq, Prod.mk.injEq] at read
  have whole : (u ++ s).takeWhile CodePoint.continuesName = u := by
    have taken := List.prefix_iff_eq_take.1
      (List.takeWhile_prefix (l := u ++ s) CodePoint.continuesName)
    rw [taken, show ((u ++ s).takeWhile CodePoint.continuesName).length = u.length by omega]
    simp
  have continues : ∀ d ∈ u, d.continuesName = true := by
    intro d mem
    rw [← whole] at mem
    exact List.mem_takeWhile_imp mem
  refine ⟨by rw [← read.1, whole], ⟨c, u, rfl, starts, continues⟩, ?_⟩
  rw [List.takeWhile_append_of_pos continues] at whole
  have stops : s.takeWhile CodePoint.continuesName = [] := by simpa using whole
  cases s with
  | nil => rfl
  | cons d s =>
    rw [Bool.eq_false_iff]
    intro goes
    rw [List.takeWhile_cons_of_pos (by exact goes)] at stops
    simp at stops

theorem IsName.continues {word : Text} (name : IsName word) :
    ∀ d ∈ word, d.continuesName = true := by
  obtain ⟨c, u, rfl, starts, rest⟩ := name
  rw [List.forall_mem_cons]
  exact ⟨by simp [CodePoint.continuesName, starts], rest⟩

theorem Lexeme.last_continues (lex : Lexeme kind lexeme s)
    (runs : kind.isWord = true ∨ kind = .hexInteger) {d : CodePoint}
    (last : lexeme.getLast? = some d) : d.continuesName = true := by
  have mem := List.mem_of_getLast? last
  by_cases word : kind.isWord = true
  · exact (lex.name word).2.1.continues d mem
  · obtain rfl := runs.resolve_left word
    obtain ⟨c, u, rfl, -, read⟩ := lex
    have number : numberLength (c :: (u ++ s)) = .ok (.hexInteger, u.length + 1) := by
      generalize isHex : Kind.hexInteger = kind at read ⊢
      generalize u.length + 1 = n at read ⊢
      cases reading read with
      | number _ _ read => exact read
      | operator => simp at isHex
      | atSign => simp at isHex
      | separator => simp at isHex
      | literal => simp at isHex
      | word =>
        have word := kindOfWord_isWord (c :: (u ++ s).takeWhile CodePoint.continuesName)
        rw [← isHex] at word
        simp [Kind.isWord] at word
    apply solid_hexInteger number d
    rwa [← List.cons_append, List.take_left' (by simp)]

theorem Lexeme.atSign (lex : Lexeme .atSign lexeme s) : lexeme = [CodePoint.ofChar '@'] := by
  obtain ⟨c, u, rfl, -, read⟩ := lex
  generalize length : u.length + 1 = n at read
  generalize isAt : Kind.atSign = kind at read
  cases reading read with
  | atSign first => simpa [first] using length
  | operator => simp at isAt
  | separator => simp at isAt
  | number number =>
    subst isAt
    simp [Kind.isNumber] at number
  | literal => simp at isAt
  | word =>
    have word := kindOfWord_isWord (c :: (u ++ s).takeWhile CodePoint.continuesName)
    rw [← isAt] at word
    simp [Kind.isWord] at word

theorem Lexeme.last (lex : Lexeme kind lexeme s) {d : CodePoint}
    (last : lexeme.getLast? = some d) : d.isInk = true := by
  obtain ⟨c, u, rfl, -, read⟩ := lex
  apply readLexeme_last read
  rw [← List.cons_append, List.take_left' (by simp)]
  exact last

theorem Lexeme.solid (lex : Lexeme kind lexeme s) (other : kind ≠ .string) :
    ∀ d ∈ lexeme, d.isInk = true := by
  obtain ⟨c, u, rfl, -, read⟩ := lex
  have solid := readLexeme_solid read other
  rw [← List.cons_append] at solid
  intro d mem
  apply solid d
  rwa [List.take_left' (by simp)]

theorem IsGap.head_joins {c : CodePoint} (gap : IsGap (c :: s)) : c.joins = false := by
  have slash : (CodePoint.ofChar '/').joins = false := by decide
  generalize whole : c :: s = g at gap
  cases gap with
  | nil => simp at whole
  | @blank d _ blank =>
    obtain rfl : c = d := by simpa using (List.cons.inj whole).1
    rw [Bool.eq_false_iff]
    intro joins
    have all : ∀ d ∈ Text.ofString "_.=<>-+|&:*", d.isBlank = false := by decide
    have visible := all c (List.contains_iff_mem.1 joins)
    simp [blank] at visible
  | line => rwa [(List.cons.inj whole).1]
  | block => rwa [(List.cons.inj whole).1]

theorem IsTail.head_joins {c : CodePoint} (tail : IsTail (c :: s)) :
    c.joins = false := by
  rcases tail with gap | ⟨gap, body, isGap, -, split⟩
  · exact gap.head_joins
  · cases gap with
    | nil =>
      rw [List.nil_append, List.cons.injEq] at split
      rw [split.1]
      decide
    | cons d gap =>
      rw [List.cons_append, List.cons.injEq] at split
      rw [split.1]
      exact isGap.head_joins

end Token

/-- Whether the piece is a separator behind which any text may stand. -/
def Piece.isSealed (p : Piece) : Bool :=
  p.kind = .separator && p.lexeme != Text.ofString "."

namespace Scan

open Token

variable {ps qs : List Piece} {p : Piece} {s t : Text}

theorem source_cons (p : Piece) (ps : List Piece) :
    source (p :: ps) = p.gap ++ (p.lexeme ++ source ps) := by
  simp [source]

theorem source_append (ps qs : List Piece) : source (ps ++ qs) = source ps ++ source qs := by
  simp [source]

@[simp] theorem source_nil : source [] = [] := rfl

/-- Whether a scan of the pieces in front of a text gives the pieces and goes on with the text. -/
def Fits : List Piece → Text → Prop
  | [], _ => True
  | p :: ps, s => IsGap p.gap ∧ Lexeme p.kind p.lexeme (source ps ++ s) ∧ Fits ps s

theorem run_of_lexeme {gap lexeme rest : Text} {kind : Kind} (isGap : IsGap gap)
    (lex : Lexeme kind lexeme rest) :
    run (gap ++ (lexeme ++ rest)) = (⟨gap, kind, lexeme⟩ :: (run rest).1, (run rest).2) := by
  obtain ⟨c, u, rfl, zero, read⟩ := lex
  have length : gapLength (gap ++ (c :: u ++ rest)) = gap.length := by
    rw [isGap.gapLength_append, List.cons_append, zero, Nat.add_zero]
  rw [run]
  split
  · rename_i nothing
    rw [length] at nothing
    simp at nothing
  · rename_i d later split
    rw [length, List.drop_left, List.cons_append, List.cons.injEq] at split
    obtain ⟨rfl, rfl⟩ := split
    rw [read]
    rw [List.cons_append] at length
    simp [length]

theorem run_of_fits (fits : Fits ps s) : run (source ps ++ s) = (ps ++ (run s).1, (run s).2) := by
  induction ps with
  | nil => rfl
  | cons p ps ih =>
    obtain ⟨gap, lex, rest⟩ := fits
    rw [source_cons, List.append_assoc, List.append_assoc, run_of_lexeme gap lex, ih rest]
    rfl

theorem fits_of_run {ending : Ending} (ran : run s = (ps, ending)) : Fits ps ending.text := by
  induction ps generalizing s with
  | nil => trivial
  | cons p ps ih =>
    have whole := source_run s
    rw [ran] at whole
    obtain ⟨bound, tail, isGap, stop⟩ := gapLength_spec s
    have gapEnd : (s.take (gapLength s)).length = gapLength s := by
      rw [List.length_take]
      omega
    rw [run] at ran
    split at ran
    · simp at ran
    · rename_i c rest split
      split at ran
      · simp at ran
      · rename_i kind n read
        simp only [Prod.mk.injEq, List.cons.injEq] at ran
        obtain ⟨⟨rfl, later⟩, ended⟩ := ran
        have bounds := readLexeme_bounds read
        have fits := ih (s := rest.drop (n - 1)) (Prod.ext later ended)
        have back : source ps ++ ending.text = rest.drop (n - 1) := by
          rw [← later, ← ended]
          exact source_run _
        have inside : gapLength s < s.length := by
          have := congrArg List.length split
          rw [List.length_drop, List.length_cons] at this
          omega
        refine ⟨isGap inside, ⟨c, rest.take (n - 1), rfl, ?_, ?_⟩, fits⟩
        · rw [back, List.take_append_drop, ← split]
          exact stop
        · rw [back, List.take_append_drop, read, List.length_take]
          congr 2
          omega

theorem run_tail (tail : IsTail t) : run t = ([], .done t) := by
  rw [run]
  split
  · rw [tail.gapLength_eq, List.take_length]
  · rename_i more
    rw [tail.gapLength_eq, List.drop_length] at more
    simp at more

theorem isTail_of_run (ran : run s = (ps, .done t)) : IsTail t := by
  induction ps generalizing s with
  | nil =>
    obtain ⟨_, tail, _⟩ := gapLength_spec s
    rw [run] at ran
    split at ran
    · simp only [Prod.mk.injEq, Ending.done.injEq, true_and] at ran
      rwa [ran] at tail
    · split at ran <;> simp at ran
  | cons p ps ih =>
    rw [run] at ran
    split at ran
    · simp at ran
    · split at ran
      · simp at ran
      · simp only [Prod.mk.injEq, List.cons.injEq] at ran
        exact ih (Prod.ext ran.1.2 ran.2)

/-- The front of a gap is a gap when it can be scanned by itself and ends a line. -/
theorem isGap_of_run {ending : Text} (gap : IsGap (s ++ t)) (ran : run s = (ps, .done ending))
    (ends : s.getLast? = some (CodePoint.ofChar '\n')) : IsGap s := by
  obtain ⟨_, tail, isGap, stop⟩ := gapLength_spec s
  by_cases inside : gapLength s < s.length
  · exfalso
    have split := List.take_append_drop (gapLength s) s
    obtain ⟨c, rest, more⟩ := List.exists_cons_of_ne_nil (l := s.drop (gapLength s)) (by
      rw [Ne, List.drop_eq_nil_iff]
      omega)
    have last : (c :: rest).getLast? = some (CodePoint.ofChar '\n') := by
      rw [← more, List.getLast?_drop, if_neg (by omega), ends]
    rw [← split, List.append_assoc, more] at gap
    have later := (isGap inside).of_append gap
    rw [more] at stop
    generalize whole : c :: rest ++ t = g at later
    cases later with
    | nil => simp at whole
    | blank isBlank =>
      rw [← (List.cons.inj whole).1] at isBlank
      rw [gapLength_blank rest isBlank] at stop
      omega
    | line =>
      obtain ⟨rfl, behind⟩ := List.cons.inj whole
      cases rest with
      | nil => exact absurd last (by decide)
      | cons d rest =>
        obtain ⟨rfl, -⟩ := List.cons.inj behind
        rw [gapLength_comment (n := 2 + lineLength rest) rfl] at stop
        omega
    | block =>
      obtain ⟨rfl, behind⟩ := List.cons.inj whole
      cases rest with
      | nil => exact absurd last (by decide)
      | cons d rest =>
        obtain ⟨rfl, -⟩ := List.cons.inj behind
        rw [run] at ran
        split at ran
        · rename_i nothing
          rw [more] at nothing
          simp at nothing
        · rename_i e later found
          rw [more] at found
          obtain ⟨rfl, rfl⟩ := List.cons.inj found
          have stuck : readLexeme (CodePoint.ofChar '/') (CodePoint.ofChar '*' :: rest)
              = .error (.unclosed .unterminatedComment) := rfl
          rw [stuck] at ran
          simp at ran
  · rw [List.take_of_length_le (by omega)] at tail
    exact tail.isGap ends

theorem fits_append : Fits (ps ++ qs) s ↔ Fits ps (source qs ++ s) ∧ Fits qs s := by
  induction ps with
  | nil => simp [Fits]
  | cons p ps ih =>
    simp only [List.cons_append, Fits, source_append, List.append_assoc, ih, and_assoc]

theorem Fits.ne_nil (fits : Fits (p :: ps) s) : source (p :: ps) ≠ [] := by
  have := fits.2.1.ne_nil
  simp [source_cons, this]

/-! ## Exchanging the text behind pieces -/

theorem Fits.exchange (fits : Fits ps s) (exchange : Exchange s t)
    (behind : ∀ p, ps.getLast? = some p → Behind p.kind s t) : Fits ps t := by
  induction ps with
  | nil => trivial
  | cons p ps ih =>
    obtain ⟨gap, lex, rest⟩ := fits
    have later : Fits ps t := by
      apply ih rest
      intro q last
      cases ps with
      | nil => simp at last
      | cons q' ps => exact behind q (by rw [List.getLast?_cons_cons]; exact last)
    refine ⟨gap, lex.exchange exchange ?_, later⟩
    intro alone
    cases ps with
    | nil => exact behind p rfl
    | cons q ps => exact absurd alone rest.ne_nil

theorem Fits.exchange_same {c : CodePoint} (fits : Fits ps (c :: s)) (alone : c.joins = false)
    (t : Text) : Fits ps (c :: t) :=
  fits.exchange (.same s t alone) fun p _ => .same p.kind c s t

theorem Fits.exchange_gap {g : Text} (fits : Fits ps (g ++ s)) (gap : IsGap g) (more : g ≠ [])
    (t : Text) : Fits ps (g ++ t) := by
  cases g with
  | nil => exact absurd rfl more
  | cons c g => exact fits.exchange_same gap.head_joins (g ++ t)

theorem Fits.exchange_sealed (fits : Fits ps s)
    (closed : ∀ p, ps.getLast? = some p → p.isSealed = true) (t : Text) : Fits ps t := by
  rcases List.eq_nil_or_concat ps with rfl | ⟨front, p, rfl⟩
  · trivial
  · have closed := closed p (by simp)
    simp only [Piece.isSealed, Bool.and_eq_true, decide_eq_true_eq, bne_iff_ne, ne_eq] at closed
    rw [List.concat_eq_append, fits_append] at fits ⊢
    obtain ⟨front, gap, lex, -⟩ := fits
    obtain ⟨c, lexeme, separator⟩ := (closed.1 ▸ lex).separator
    have other : c ≠ CodePoint.ofChar '.' := by
      rintro rfl
      exact closed.2 lexeme
    have alone : c.joins = false := by
      have all : ∀ d ∈ separators, d ≠ CodePoint.ofChar '.' → d.joins = false := by decide
      exact all c (List.contains_iff_mem.1 separator) other
    refine ⟨?_, gap, ?_, trivial⟩
    · simp only [source_cons, source_nil, List.append_nil, List.append_assoc] at front ⊢
      by_cases none : p.gap = []
      · rw [none, List.nil_append, lexeme] at front ⊢
        exact front.exchange_same alone t
      · exact front.exchange_gap gap none _
    · rw [lexeme, closed.1]
      exact lexeme_separator separator other _

theorem Fits.regap {g : Text} (fits : Fits (p :: ps) s) (gap : IsGap g) :
    Fits ({ p with gap := g } :: ps) s :=
  ⟨gap, fits.2⟩

/-! ## Words put in, exchanged and taken out -/

variable {front back : List Piece} {a v : Piece} {w : Text}

/-- A word put in before a piece, with a blank behind it, is read as such unless it runs into a
word or a number before it. -/
theorem Fits.insert (fits : Fits (front ++ a :: back) s) (name : IsName w)
    (begins : ∀ c, w.head? = some c → c.ends = true)
    (apart : a.gap ≠ [] ∨
      ∀ p, front.getLast? = some p → p.kind.isWord = false ∧ p.kind ≠ .hexInteger)
    (quiet : ∀ d, a.lexeme.head? = some d → d.lingers = false) :
    Fits (front ++ ⟨a.gap, kindOfWord w, w⟩ :: ⟨[CodePoint.ofChar ' '], a.kind, a.lexeme⟩ :: back)
      s := by
  rw [fits_append] at fits ⊢
  obtain ⟨before, gap, lex, rest⟩ := fits
  have space : IsGap [CodePoint.ofChar ' '] := .blank (by decide) .nil
  have alone : continuesIn (CodePoint.ofChar ' ' :: (a.lexeme ++ source back ++ s)) = false :=
    continuesName_of_isBlank (by decide)
  refine ⟨?_, gap, ?_, space, lex, rest⟩
  · rw [source_cons, List.append_assoc] at before ⊢
    by_cases none : a.gap = []
    · obtain ⟨c, u, rfl, starts⟩ := name.head
      have apart := apart.resolve_left (by simp [none])
      obtain ⟨d, tail, lexeme⟩ := List.exists_cons_of_ne_nil lex.ne_nil
      rw [none, List.nil_append] at before ⊢
      apply before.exchange
      · apply Exchange.ends _ _ (begins c rfl)
        intro e head
        apply quiet e
        rw [lexeme] at head ⊢
        exact head
      · intro p last
        obtain ⟨noWord, noHex⟩ := apart p last
        refine ⟨fun word => ?_, fun hex => absurd hex noHex, fun _ line => ?_⟩
        · simp [noWord] at word
        · obtain rfl : c = CodePoint.ofChar '/' := by
            simpa [headIn, Text.ofString] using line
          exact absurd starts (by decide +kernel)
    · exact before.exchange_gap gap none _
  · apply lexeme_name name
    simpa [source_cons] using alone

theorem Fits.replace (fits : Fits (front ++ v :: back) s) (word : v.kind.isWord = true)
    (name : IsName w) (head : v.lexeme.head? = w.head?)
    (alone : ∀ c, w.head? = some c → c.joins = false) :
    Fits (front ++ ⟨v.gap, kindOfWord w, w⟩ :: back) s := by
  rw [fits_append] at fits ⊢
  obtain ⟨before, gap, lex, rest⟩ := fits
  obtain ⟨c, u, rfl, starts⟩ := name.head
  obtain ⟨_, _, stop⟩ := lex.name word
  refine ⟨?_, gap, lexeme_name name stop, rest⟩
  rw [source_cons, List.append_assoc] at before ⊢
  by_cases none : v.gap = []
  · obtain ⟨d, tail, lexeme⟩ := List.exists_cons_of_ne_nil lex.ne_nil
    obtain rfl : d = c := by simpa [lexeme] using head
    rw [none, List.nil_append] at before ⊢
    rw [lexeme] at before
    exact before.exchange_same (alone d rfl) _
  · exact before.exchange_gap gap none _

/-- A word taken out leaves the pieces around it as they are, if it stood apart. -/
theorem Fits.remove {g : Text} (fits : Fits (front ++ v :: a :: back) s) (gap : IsGap g)
    (apart : v.gap ≠ [] ∨ ∀ p, front.getLast? = some p → p.isSealed = true) :
    Fits (front ++ ⟨v.gap ++ g, a.kind, a.lexeme⟩ :: back) s := by
  rw [fits_append] at fits ⊢
  obtain ⟨before, isGap, _, rest⟩ := fits
  refine ⟨?_, isGap.append gap, rest.2⟩
  rw [source_cons, List.append_assoc] at before ⊢
  by_cases none : v.gap = []
  · exact before.exchange_sealed (apart.resolve_left (by simp [none])) _
  · simpa using before.exchange_gap isGap none _

end Scan

end JavaUnits
