import JavaUnits.Proofs.Outlines

/-!
Offsets of tokens. In a text without escapes and returns the line and the column of a token lead to
the very place where it was read, whatever comments and blanks stand before it and however often
its text occurs in the line, unless a literal runs over a line break.
-/

namespace JavaUnits

open CodePoint Token Scan Text

variable {s : Text} {ts : List Token}

/-- A line break is found in literals only. -/
theorem noBreak_of_fits {ps : List Piece} {t : Text} (fits : Fits ps t)
    (unbroken : ∀ p ∈ ps, p.kind = .string → ofChar '\n' ∉ p.lexeme) :
    ∀ p ∈ ps, ofChar '\n' ∉ p.lexeme := by
  intro p mem isBreak
  obtain ⟨front, back, rfl⟩ := List.append_of_mem mem
  obtain ⟨-, lex, -⟩ := (fits_append.1 fits).2
  by_cases literal : p.kind = .string
  · exact unbroken p mem literal isBreak
  · exact isInk_ne_break (lex.solid literal _ isBreak) rfl

/-- The text is the gaps and the tokens one after another, and each token is found where it stands
in it. -/
theorem offset?_of_tokenize (plain : s.IsPlain) (noReturn : ofChar '\r' ∉ s)
    (read : tokenize s = .ok ts)
    (unbroken : ∀ t ∈ ts, t.kind = .string → ofChar '\n' ∉ t.value) :
    ∃ ps tail, run s = (ps, .done tail) ∧ s = source ps ++ tail ∧ (∀ p ∈ ps, IsGap p.gap) ∧
      IsTail tail ∧ ts = tokens ps ∧
      ∀ before t after, ts = before ++ t :: after → ∃ front p back, ps = front ++ p :: back ∧
        before = tokens front ∧ t.kind = p.kind ∧ t.value = p.lexeme ∧
        Layout.offset? (.ofText s.unifyBreaks) t = some (source front ++ p.gap).length := by
  obtain ⟨ps, tail, ran, rfl⟩ := run_of_tokenize plain read
  have whole := source_run s
  have fits := fits_of_run ran
  rw [ran] at whole
  have values (p : Piece) (mem : p ∈ ps) (literal : p.kind = .string) : ofChar '\n' ∉ p.lexeme := by
    have bare : p.token ∈ (tokens ps).map bare := by
      rw [tokens, bare_tokensFrom]
      exact List.mem_map_of_mem mem
    obtain ⟨t, inside, same⟩ := List.mem_map.1 bare
    have := unbroken t inside ((congrArg Token.kind same).trans literal)
    rwa [show t.value = p.lexeme from congrArg Token.value same] at this
  have placed : Placed s ps := by
    have := placed_of_noBreak (noBreak_of_fits fits values) tail
    rwa [show source ps ++ tail = s from whole] at this
  refine ⟨ps, tail, ran, whole.symm, ?_, isTail_of_run ran, rfl, ?_⟩
  · intro p mem
    obtain ⟨front, back, rfl⟩ := List.append_of_mem mem
    exact (fits_append.1 fits).2.1
  · intro before t after split
    obtain ⟨front, back, rfl, rfl, rest⟩ := tokensFrom_eq_append split
    cases back with
    | nil => cases rest
    | cons p back =>
      obtain ⟨rfl, -⟩ := List.cons.inj rest
      refine ⟨front, p, back, rfl, rfl, rfl, rfl, ?_⟩
      rw [unifyBreaks_of_notMem noReturn, List.length_append]
      exact placed front p back rfl

/-- A comment over lines, tabs, and tokens whose texts also stand beside and before them. -/
def spread : Text :=
  "/* ;\n * a */\tclass A \x7b // \x7b;;\n\t\tchar a = ';', aa = 'a' ;;\n\x7d\x7d \x7d\n"

theorem offset?_of_tokenize_spread : spread.IsPlain ∧ ofChar '\r' ∉ spread ∧
    ∃ ts, tokenize spread = .ok ts ∧ ts.length = 16 ∧
      (∀ t ∈ ts, t.kind = .string → ofChar '\n' ∉ t.value) ∧
      ∃ ps tail, spread = source ps ++ tail ∧ (∀ p ∈ ps, IsGap p.gap) ∧
        ∀ before t after, ts = before ++ t :: after → ∃ front p back, ps = front ++ p :: back ∧
          before = tokens front ∧ t.value = p.lexeme ∧
          Layout.offset? (.ofText spread.unifyBreaks) t = some (source front ++ p.gap).length := by
  have plain : spread.IsPlain := by decide
  have noReturn : ofChar '\r' ∉ spread := by decide
  obtain ⟨ts, read, length, unbroken⟩ : ∃ ts ∈ (tokenize spread).toOption, ts.length = 16 ∧
      ∀ t ∈ ts, t.kind = .string → ofChar '\n' ∉ t.value := by
    rw [spread, ofString_ofList]
    decide +kernel
  have read := toOption_eq_some.1 read
  obtain ⟨ps, tail, -, whole, gaps, -, -, found⟩ := offset?_of_tokenize plain noReturn read unbroken
  refine ⟨plain, noReturn, ts, read, length, unbroken, ps, tail, whole, gaps, ?_⟩
  intro before t after split
  obtain ⟨front, p, back, pieces, earlier, -, value, place⟩ := found before t after split
  exact ⟨front, p, back, pieces, earlier, value, place⟩

end JavaUnits
