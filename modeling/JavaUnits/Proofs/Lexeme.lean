import JavaUnits.Proofs.Gap
import JavaUnits.Proofs.Number
import JavaUnits.Token.Lexer

/-!
How far a lexeme looks ahead. The text behind a lexeme may be exchanged for another without changing
how the lexeme is read, unless the exchange makes a name, a number or a comment go on.
-/

namespace JavaUnits

open CodePoint

def Kind.isWord : Kind → Bool
  | keyword | modifier | basicType | boolean | null | identifier => true
  | _ => false

def Kind.isNumber : Kind → Bool
  | decimalInteger | octalInteger | binaryInteger | hexInteger | decimalFloat | hexFloat => true
  | _ => false

theorem Kind.isWord_of_isNumber {kind : Kind} (number : kind.isNumber = true) :
    kind.isWord = false := by
  cases kind <;> first | rfl | simp [Kind.isNumber] at number

theorem Kind.isWord_of_isKeyword {kind : Kind} (keyword : kind.isKeyword = true) :
    kind.isWord = true := by
  revert keyword
  cases kind <;> simp [Kind.isKeyword, Kind.isWord]

namespace Token

variable {s t : Text}

theorem kindOfWord_isWord (word : Text) : (kindOfWord word).isWord = true := by
  rw [kindOfWord]
  repeat' split
  all_goals rfl

/-- Whether a name would go on in the text. -/
def continuesIn : Text → Bool
  | [] => false
  | c :: _ => c.continuesName

/-- An exchange that does not make a lexeme of the kind go on, nor begin a comment. -/
structure Behind (kind : Kind) (s t : Text) : Prop where
  name : kind.isWord = true → continuesIn t = true → continuesIn s = true
  exponent : kind = .hexInteger → headIn ".pP" t = true → headIn ".pP" s = true
  comment : kind = .operator → headIn "/" t = true → headIn "/" s = true

theorem Behind.same (kind : Kind) (c : CodePoint) (s t : Text) : Behind kind (c :: s) (c :: t) :=
  ⟨fun _ go => go, fun _ go => go, fun _ go => go⟩

/-! ## Operators -/

theorem operators_joins {operator : Text} (mem : operator ∈ operators) :
    ∀ c ∈ operator.tail, c.joins = true := by
  have all : ∀ operator ∈ operators, ∀ c ∈ operator.tail, c.joins = true := by decide
  exact all operator mem

theorem operators_ne_nil {operator : Text} (mem : operator ∈ operators) : operator ≠ [] := by
  have all : ∀ operator ∈ operators, operator ≠ [] := by decide
  exact all operator mem

theorem exchange_head (exchange : Exchange s t) : ∃ c rest, t = c :: rest ∧ c.joins = false := by
  cases exchange with
  | same s t alone => exact ⟨_, t, rfl, alone⟩
  | ends t _ stop =>
    simp only [CodePoint.ends, Bool.and_eq_true, Bool.not_eq_true'] at stop
    exact ⟨_, t, rfl, stop.1.1.1⟩

/-- Marks that join cannot reach over an exchange. -/
theorem isPrefixOf_exchange {c : CodePoint} {u mark : Text}
    (joining : ∀ d ∈ mark.tail, d.joins = true) (exchange : Exchange s t)
    (found : mark.isPrefixOf (c :: u ++ t) = true) : mark.isPrefixOf (c :: u) = true := by
  obtain ⟨e, rest, rfl, alone⟩ := exchange_head exchange
  rw [List.isPrefixOf_iff_prefix] at found ⊢
  rcases List.prefix_or_prefix_of_prefix found (List.prefix_append (c :: u) (e :: rest)) with
    inside | ⟨more, rfl⟩
  · exact inside
  · cases more with
    | nil => simp
    | cons d more =>
      obtain ⟨rfl, _⟩ := List.cons_prefix_cons.1 ((List.prefix_append_right_inj (c :: u)).1 found)
      have := joining d (by simp)
      simp [alone] at this

theorem isPrefixOf_append {u mark : Text} (s : Text) (found : mark.isPrefixOf u = true) :
    mark.isPrefixOf (u ++ s) = true := by
  rw [List.isPrefixOf_iff_prefix] at found ⊢
  exact found.trans (List.prefix_append u s)

theorem operatorLength?_exchange {c : CodePoint} {u : Text} {n : Nat} (exchange : Exchange s t)
    (found : operatorLength? (c :: u ++ s) = some n) (short : n ≤ u.length + 1) :
    operatorLength? (c :: u ++ t) = some n := by
  obtain ⟨operator, search, rfl⟩ := Option.map_eq_some_iff.1 found
  obtain ⟨hit, before, after, split, misses⟩ := List.find?_eq_some_iff_append.1 search
  apply Option.map_eq_some_iff.2
  refine ⟨operator, List.find?_eq_some_iff_append.2 ⟨?_, before, after, split, ?_⟩, rfl⟩
  · apply isPrefixOf_append
    rw [List.isPrefixOf_iff_prefix] at hit ⊢
    exact List.prefix_of_prefix_length_le hit (List.prefix_append (c :: u) s) (by simpa using short)
  · intro other mem
    have miss := misses other mem
    simp only [Bool.not_eq_true', Bool.eq_false_iff] at miss ⊢
    intro hit
    have joining := @operators_joins other (by simp [split, mem])
    exact miss (isPrefixOf_append s (isPrefixOf_exchange joining exchange hit))

theorem operatorLength?_bounds {n : Nat} (found : operatorLength? s = some n) :
    0 < n ∧ n ≤ s.length ∧ s.take n ∈ operators := by
  obtain ⟨operator, search, rfl⟩ := Option.map_eq_some_iff.1 found
  have hit := List.find?_some search
  have mem := List.mem_of_find?_eq_some search
  rw [List.isPrefixOf_iff_prefix] at hit
  refine ⟨List.length_pos_iff.2 (operators_ne_nil mem), hit.length_le, ?_⟩
  rwa [← List.prefix_iff_eq_take.1 hit]

/-! ## Literals -/

theorem literalLength_bounds {quote : CodePoint} {passed n : Nat}
    (read : literalLength quote passed s = .ok n) : passed < n ∧ n ≤ passed + s.length := by
  fun_induction literalLength quote passed s with
  | case1 => simp at read
  | case2 passed =>
    obtain rfl : passed + 1 = n := by simpa using read
    simp
  | case3 => simp at read
  | case4 passed d s =>
    simp only [Except.ok.injEq] at read
    simp only [List.length_cons]
    omega
  | case5 passed d s other escape ih =>
    have := ih read
    simp only [List.length_cons]
    omega
  | case6 => simp at read
  | case7 passed c d s other plain ih =>
    have := ih read
    simp only [List.length_cons] at this ⊢
    omega

theorem literalLength_quote {quote : CodePoint} {passed : Nat} (s : Text) :
    literalLength quote passed (quote :: s) = .ok (passed + 1) := by
  cases s <;> simp [literalLength]

theorem literalLength_append {quote : CodePoint} {passed n : Nat} {u : Text} (t : Text)
    (read : literalLength quote passed (u ++ s) = .ok n) (short : n ≤ passed + u.length) :
    literalLength quote passed (u ++ t) = .ok n := by
  match u with
  | [] =>
    have := (literalLength_bounds read).1
    simp only [List.length_nil] at short
    omega
  | [c] =>
    by_cases closing : c = quote
    · subst closing
      rw [List.singleton_append, literalLength_quote] at read ⊢
      exact read
    · exfalso
      cases s with
      | nil => simp [literalLength, closing] at read
      | cons d s =>
        simp only [List.singleton_append, literalLength, if_neg closing] at read
        simp only [List.length_singleton] at short
        split at read
        · split at read
          · have := (literalLength_bounds read).1
            omega
          · simp at read
        · have := (literalLength_bounds read).1
          omega
  | c :: d :: u =>
    simp only [List.cons_append, literalLength] at read ⊢
    simp only [List.length_cons] at short
    split at read
    · rename_i closing
      rwa [if_pos closing]
    · rename_i other
      rw [if_neg other]
      split at read
      · rename_i escape
        rw [if_pos escape]
        split at read
        · rename_i allowed
          rw [if_pos allowed]
          exact literalLength_append t read (by omega)
        · simp at read
      · rename_i plain
        rw [if_neg plain]
        exact literalLength_append (u := d :: u) t read (by simp only [List.length_cons]; omega)

theorem literalLength_last {quote : CodePoint} {passed n : Nat}
    (read : literalLength quote passed s = .ok n) : s[n - passed - 1]? = some quote := by
  fun_induction literalLength quote passed s with
  | case1 => simp at read
  | case2 passed =>
    obtain rfl : passed + 1 = n := by simpa using read
    simp
  | case3 => simp at read
  | case4 passed d s =>
    obtain rfl : passed + 1 = n := by simpa using read
    simp
  | case5 passed d s other escape ih =>
    have bound := (literalLength_bounds read).1
    obtain ⟨m, rfl⟩ : ∃ m, n = passed + 2 + 1 + m := ⟨n - (passed + 3), by omega⟩
    have := ih read
    rw [show passed + 2 + 1 + m - (passed + 2) - 1 = m by omega] at this
    rw [show passed + 2 + 1 + m - passed - 1 = m + 2 by omega]
    simpa using this
  | case6 => simp at read
  | case7 passed c d s other plain ih =>
    have bound := (literalLength_bounds read).1
    obtain ⟨m, rfl⟩ : ∃ m, n = passed + 1 + 1 + m := ⟨n - (passed + 2), by omega⟩
    have := ih read
    rw [show passed + 1 + 1 + m - (passed + 1) - 1 = m by omega] at this
    rw [show passed + 1 + 1 + m - passed - 1 = m + 1 by omega]
    simpa using this

/-! ## Lexemes -/

theorem readNumber_eq_ok {kind : Kind} {n : Nat} :
    readNumber s = .ok (kind, n) ↔ numberLength s = .ok (kind, n) := by
  rw [readNumber]
  split
  · rename_i found
    simp [found]
  all_goals simp_all

/-- A name that ends in a text is read alike whatever stands behind the text, and one that ends
with it as long as no name goes on there. -/
theorem nameLength_exchange {u : Text}
    (short : ((u ++ s).takeWhile CodePoint.continuesName).length ≤ u.length)
    (behind : ((u ++ s).takeWhile CodePoint.continuesName).length = u.length →
      continuesIn t = true → continuesIn s = true) :
    (u ++ t).takeWhile CodePoint.continuesName = (u ++ s).takeWhile CodePoint.continuesName := by
  rw [List.takeWhile_append, List.takeWhile_append] at *
  split
  · rename_i whole
    rw [if_pos whole] at short behind
    rw [List.length_append] at short behind
    have stops : s.takeWhile CodePoint.continuesName = [] := by
      rw [← List.length_eq_zero_iff]
      omega
    have quiet : ¬continuesIn s = true := by
      cases s with
      | nil => simp [continuesIn]
      | cons c s =>
        intro goes
        rw [List.takeWhile_cons_of_pos (by exact goes)] at stops
        simp at stops
    have behind := behind (by rw [stops]; simp)
    congr 1
    rw [stops]
    cases t with
    | nil => rfl
    | cons c t =>
      rw [List.takeWhile_cons_of_neg]
      exact fun goes => quiet (behind goes)
  · rfl

theorem head_exchange {u : Text} {c : CodePoint} (joins : c.joins = true)
    (exchange : Exchange s t) (here : (u ++ t).head? = some c) : (u ++ s).head? = some c := by
  obtain ⟨e, rest, rfl, alone⟩ := exchange_head exchange
  cases u with
  | nil =>
    obtain rfl : e = c := by simpa using here
    simp [joins] at alone
  | cons d u => exact here

theorem digit_exchange {u : Text} (exchange : Exchange s t) :
    ((u ++ t).head?.map CodePoint.isDigit).getD false
      = ((u ++ s).head?.map CodePoint.isDigit).getD false := by
  cases u with
  | cons d u => rfl
  | nil =>
    cases exchange with
    | same => rfl
    | ends _ quiet stop =>
      simp only [CodePoint.ends, Bool.and_eq_true, Bool.not_eq_true'] at stop
      cases s with
      | nil => simp [stop.2]
      | cons d s =>
        have noDigit := quiet d (by simp)
        simp only [CodePoint.lingers, Bool.or_eq_false_iff] at noDigit
        simp [stop.2, noDigit.2]

theorem startsWith_exchange {c : CodePoint} {u mark : Text}
    (joining : ∀ d ∈ mark.tail, d.joins = true) (exchange : Exchange s t)
    (found : Text.startsWith (c :: (u ++ t)) mark = true) :
    Text.startsWith (c :: (u ++ s)) mark = true :=
  isPrefixOf_append s (isPrefixOf_exchange joining exchange found)

theorem startsWith_of_short {c : CodePoint} {u mark : Text} (t : Text)
    (found : Text.startsWith (c :: (u ++ s)) mark = true) (short : mark.length ≤ u.length + 1) :
    Text.startsWith (c :: (u ++ t)) mark = true := by
  rw [Text.startsWith, List.isPrefixOf_iff_prefix] at found ⊢
  have inside : mark <+: c :: u :=
    List.prefix_of_prefix_length_le found (List.prefix_append (c :: u) s) (by simpa using short)
  exact inside.trans (List.prefix_append (c :: u) t)

theorem readLexeme_exchange {c : CodePoint} {u : Text} {kind : Kind} {n : Nat}
    (exchange : Exchange s t) (behind : n = u.length + 1 → Behind kind s t)
    (read : readLexeme c (u ++ s) = .ok (kind, n)) (short : n ≤ u.length + 1) :
    readLexeme c (u ++ t) = .ok (kind, n) := by
  have number (read : readNumber (c :: (u ++ s)) = .ok (kind, n)) :
      readNumber (c :: (u ++ t)) = .ok (kind, n) := by
    rw [readNumber_eq_ok] at read ⊢
    exact steady_numberLength exchange (fun whole => (behind whole).exponent) read short
  rw [readLexeme] at read ⊢
  by_cases comment : c = '/' ∧ (u ++ s).head? = some (CodePoint.ofChar '*')
  · simp [comment] at read
  rw [if_neg comment] at read
  rw [if_neg fun mark => comment ⟨mark.1, head_exchange (by decide) exchange mark.2⟩]
  by_cases dots : Text.startsWith (c :: (u ++ s)) "..." = true
  · rw [if_pos dots] at read
    obtain ⟨rfl, rfl⟩ : Kind.operator = kind ∧ 3 = n := by simpa using read
    rw [if_pos (startsWith_of_short t dots short)]
  rw [if_neg dots] at read
  rw [if_neg fun mark => dots (startsWith_exchange (by decide) exchange mark)]
  by_cases atSign : c = CodePoint.ofChar '@'
  · rwa [if_pos atSign] at read ⊢
  rw [if_neg atSign] at read ⊢
  rw [digit_exchange exchange]
  by_cases fraction : c = CodePoint.ofChar '.' ∧
      ((u ++ s).head?.map CodePoint.isDigit).getD false = true
  · rw [if_pos fraction] at read ⊢
    exact number read
  rw [if_neg fraction] at read ⊢
  by_cases separator : separators.contains c = true
  · rwa [if_pos separator] at read ⊢
  rw [if_neg separator] at read ⊢
  by_cases quote : c = CodePoint.ofChar '\'' ∨ c = CodePoint.ofChar '"'
  · rw [if_pos quote] at read ⊢
    split at read
    · rename_i m literal
      obtain ⟨rfl, rfl⟩ : Kind.string = kind ∧ m = n := by simpa using read
      rw [literalLength_append t literal (by omega)]
    all_goals simp at read
  rw [if_neg quote] at read ⊢
  by_cases digit : c.isPlainDigit = true
  · rw [if_pos digit] at read ⊢
    exact number read
  rw [if_neg digit] at read ⊢
  by_cases starts : c.startsName = true
  · rw [if_pos starts] at read ⊢
    simp only [Except.ok.injEq, Prod.mk.injEq] at read ⊢
    obtain ⟨rfl, rfl⟩ := read
    have same := nameLength_exchange (s := s) (t := t) (u := u) (by omega)
      fun whole => (behind (by omega)).name (kindOfWord_isWord _)
    rw [same]
    refine ⟨?_, rfl⟩
    rw [Nat.add_comm]
    simp only [List.take_succ_cons]
    rw [List.take_append_of_le_length (by omega), List.take_append_of_le_length (by omega)]
  rw [if_neg starts] at read ⊢
  split at read
  · rename_i m operator
    obtain ⟨rfl, rfl⟩ : Kind.operator = kind ∧ m = n := by simpa using read
    rw [← List.cons_append] at operator ⊢
    rw [operatorLength?_exchange exchange operator short]
  · simp at read

/-! ## Sorts of lexemes -/

/-- What a lexeme is and how long, by the sort of its first code point. -/
inductive Reading (c : CodePoint) (s : Text) : Kind → Nat → Prop
  | operator {n : Nat} : (c :: s).take n ∈ operators → 0 < n → n ≤ s.length + 1 →
      Reading c s .operator n
  | atSign : c = CodePoint.ofChar '@' → Reading c s .atSign 1
  | number {kind : Kind} {n : Nat} : kind.isNumber = true →
      c.isPlainDigit = true ∨ c = CodePoint.ofChar '.' → numberLength (c :: s) = .ok (kind, n) →
      Reading c s kind n
  | separator : separators.contains c = true → Reading c s .separator 1
  | literal {n : Nat} : c = CodePoint.ofChar '\'' ∨ c = CodePoint.ofChar '"' →
      literalLength c 1 s = .ok n → Reading c s .string n
  | word : c.startsName = true →
      Reading c s (kindOfWord (c :: s.takeWhile CodePoint.continuesName))
        (1 + (s.takeWhile CodePoint.continuesName).length)

theorem numberLength_isNumber {kind : Kind} {n : Nat} (read : numberLength s = .ok (kind, n)) :
    kind.isNumber = true := by
  cases numberLength_eq_ok.1 read with
  | decimal _ reading => cases reading <;> rfl
  | hex _ _ reading => cases reading <;> rfl
  | binary => rfl
  | octal => rfl

theorem reading {c : CodePoint} {kind : Kind} {n : Nat}
    (read : readLexeme c s = .ok (kind, n)) : Reading c s kind n := by
  have number (starts : c.isPlainDigit = true ∨ c = CodePoint.ofChar '.')
      (read : readNumber (c :: s) = .ok (kind, n)) : Reading c s kind n :=
    have read := readNumber_eq_ok.1 read
    .number (numberLength_isNumber read) starts read
  rw [readLexeme] at read
  split at read
  · simp at read
  split at read
  · rename_i dots
    obtain ⟨rfl, rfl⟩ : Kind.operator = kind ∧ 3 = n := by simpa using read
    rw [Text.startsWith, List.isPrefixOf_iff_prefix] at dots
    have three := dots.length_le
    have taken : Text.ofString "..." = (c :: s).take 3 := List.prefix_iff_eq_take.1 dots
    refine .operator (by rw [← taken]; decide) (by omega) ?_
    simpa [Text.ofString] using three
  split at read
  · rename_i atSign
    obtain ⟨rfl, rfl⟩ : Kind.atSign = kind ∧ 1 = n := by simpa using read
    exact .atSign atSign
  split at read
  · rename_i fraction
    exact number (.inr fraction.1) read
  split at read
  · rename_i separator
    obtain ⟨rfl, rfl⟩ : Kind.separator = kind ∧ 1 = n := by simpa using read
    exact .separator separator
  split at read
  · rename_i quote
    split at read
    · rename_i m literal
      obtain ⟨rfl, rfl⟩ : Kind.string = kind ∧ m = n := by simpa using read
      exact .literal quote literal
    all_goals simp at read
  split at read
  · rename_i digit
    exact number (.inl digit) read
  split at read
  · rename_i starts
    simp only [Except.ok.injEq, Prod.mk.injEq] at read
    obtain ⟨rfl, rfl⟩ := read
    rw [Nat.add_comm, List.take_succ_cons,
      ← List.prefix_iff_eq_take.1 (List.takeWhile_prefix CodePoint.continuesName), Nat.add_comm]
    exact .word starts
  split at read
  · rename_i m operator
    obtain ⟨rfl, rfl⟩ : Kind.operator = kind ∧ m = n := by simpa using read
    obtain ⟨positive, bound, mem⟩ := operatorLength?_bounds operator
    exact .operator mem positive (by simpa using bound)
  · simp at read

theorem readLexeme_bounds {c : CodePoint} {kind : Kind} {n : Nat}
    (read : readLexeme c s = .ok (kind, n)) : 0 < n ∧ n ≤ s.length + 1 := by
  cases reading read with
  | operator mem positive bound => exact ⟨positive, bound⟩
  | atSign => omega
  | number _ starts read =>
    exact ⟨numberLength_pos starts read, by simpa using numberLength_le read⟩
  | separator => omega
  | literal quote read =>
    have := literalLength_bounds read
    omega
  | word =>
    have := (List.takeWhile_prefix (l := s) CodePoint.continuesName).length_le
    omega

theorem isInk_of_continuesName {c : CodePoint} (continues : c.continuesName = true) :
    c.isInk = true := by
  have other : c ≠ CodePoint.ofChar '\\' := ne_of_class continues (by decide +kernel)
  have visible : c.isBlank = false := by
    rw [Bool.eq_false_iff]
    intro blank
    simp [continuesName_of_isBlank blank] at continues
  simp [isInk, visible, other]

theorem separators_isInk {c : CodePoint} (separator : separators.contains c = true) :
    c.isInk = true := by
  have all : ∀ d ∈ separators, d.isInk = true := by decide
  exact all c (List.contains_iff_mem.1 separator)

theorem operators_isInk {operator : Text} (mem : operator ∈ operators) :
    ∀ c ∈ operator, c.isInk = true := by
  have all : ∀ operator ∈ operators, ∀ c ∈ operator, c.isInk = true := by decide
  exact all operator mem

theorem readLexeme_solid {c : CodePoint} {kind : Kind} {n : Nat}
    (read : readLexeme c s = .ok (kind, n)) (other : kind ≠ .string) : Solid isInk (c :: s) n := by
  intro d mem
  cases reading read with
  | operator operator => exact operators_isInk operator d mem
  | atSign first =>
    obtain rfl : d = c := by simpa using mem
    subst first
    decide
  | number _ _ read => exact solid_numberLength read d mem
  | separator separator =>
    obtain rfl : d = c := by simpa using mem
    exact separators_isInk separator
  | literal => exact absurd rfl other
  | word starts =>
    rw [Nat.add_comm, List.take_succ_cons,
      ← List.prefix_iff_eq_take.1 (List.takeWhile_prefix CodePoint.continuesName),
      List.mem_cons] at mem
    apply isInk_of_continuesName
    rcases mem with rfl | mem
    · simp [continuesName, starts]
    · exact List.mem_takeWhile_imp mem

theorem readLexeme_last {c d : CodePoint} {kind : Kind} {n : Nat}
    (read : readLexeme c s = .ok (kind, n)) (last : ((c :: s).take n).getLast? = some d) :
    d.isInk = true := by
  by_cases literal : kind = .string
  · subst literal
    have quote : c = d ∧ (c = CodePoint.ofChar '\'' ∨ c = CodePoint.ofChar '"') := by
      generalize string : Kind.string = kind at read
      cases reading read with
      | literal quote literal =>
        have bounds := literalLength_bounds literal
        have closing := literalLength_last literal
        obtain ⟨k, rfl⟩ : ∃ k, n = k + 2 := ⟨n - 2, by omega⟩
        rw [show k + 2 - 1 - 1 = k by omega] at closing
        rw [List.getLast?_take, if_neg (by omega)] at last
        simp only [show k + 2 - 1 = k + 1 by omega, List.getElem?_cons_succ, closing] at last
        exact ⟨by simpa using last, quote⟩
      | number number =>
        subst string
        simp [Kind.isNumber] at number
      | word starts =>
        have word := kindOfWord_isWord (c :: s.takeWhile CodePoint.continuesName)
        rw [← string] at word
        simp [Kind.isWord] at word
      | operator => simp at string
      | atSign => simp at string
      | separator => simp at string
    obtain ⟨rfl, rfl | rfl⟩ := quote <;> decide
  · exact readLexeme_solid read literal d (List.mem_of_getLast? last)

/-! ## Words and separators -/

theorem startsName_apart {c : CodePoint} (starts : c.startsName = true) :
    c.isBlank = false ∧ c ≠ CodePoint.ofChar '/' ∧ c ≠ CodePoint.ofChar '@' ∧
      c ≠ CodePoint.ofChar '.' ∧ separators.contains c = false ∧ c ≠ CodePoint.ofChar '\'' ∧
      c ≠ CodePoint.ofChar '"' ∧ c.isPlainDigit = false := by
  have digit : c.isPlainDigit = false := by
    have apart := @not_within_of_rangesApart _ _ [(0x30, 0x39)] (by decide +kernel) starts
    rw [Bool.eq_false_iff]
    intro digit
    simp only [isPlainDigit, Bool.and_eq_true, decide_eq_true_eq] at digit
    simp only [within] at apart
    split at apart
    · omega
    · split at apart
      · simp at apart
      · omega
  refine ⟨?_, ne_of_class starts (by decide +kernel), ne_of_class starts (by decide +kernel),
    ne_of_class starts (by decide +kernel), contains_of_class (by decide +kernel) starts,
    ne_of_class starts (by decide +kernel), ne_of_class starts (by decide +kernel), digit⟩
  rw [Bool.eq_false_iff]
  intro blank
  have := continuesName_of_isBlank blank
  simp [continuesName, starts] at this

theorem readLexeme_name {c : CodePoint} (s : Text) (starts : c.startsName = true) :
    readLexeme c s = .ok (kindOfWord (c :: s.takeWhile CodePoint.continuesName),
      1 + (s.takeWhile CodePoint.continuesName).length) := by
  obtain ⟨_, slash, atSign, dot, separator, single, double, digit⟩ := startsName_apart starts
  have dots : ¬Text.startsWith (c :: s) "..." = true := by
    simp only [Text.startsWith, Text.ofString, String.reduceToList, List.map_cons,
      List.isPrefixOf_cons_cons, Bool.and_eq_true, beq_iff_eq, not_and]
    exact fun same => absurd same.symm dot
  rw [readLexeme, if_neg (fun block => slash block.1), if_neg dots, if_neg atSign,
    if_neg (fun fraction => dot fraction.1), if_neg (by rw [separator]; simp),
    if_neg (fun quote => quote.elim single double), if_neg (by simp [digit]), if_pos starts]
  simp only [Except.ok.injEq, Prod.mk.injEq, and_true]
  rw [Nat.add_comm, List.take_succ_cons,
    ← List.prefix_iff_eq_take.1 (List.takeWhile_prefix CodePoint.continuesName)]

end Token

end JavaUnits
