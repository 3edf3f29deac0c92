import JavaUnits.Proofs.Outcome
import JavaUnits.Proofs.Ranges
import JavaUnits.Token.Number
import Mathlib.Data.List.TakeWhile

/-!
How far a number literal looks ahead. What follows a literal may be exchanged for another text
without changing how the literal is read, if the exchange keeps the first code point or puts one
there that ends every literal.
-/

namespace JavaUnits

namespace CodePoint

/-- Code points behind which a lexeme may look further. -/
def joins (c : CodePoint) : Bool :=
  (Text.ofString "_.=<>-+|&:*").contains c

/-- Code points that a number may pass over, or that turn a dot into one. -/
def lingers (c : CodePoint) : Bool :=
  (Text.ofString "_lL").contains c || c.isDigit

/-- Neither blank nor the mark of an escape: what any lexeme may end with. -/
def isInk (c : CodePoint) : Bool :=
  !c.isBlank && c ≠ '\\'

/-- Code points that end every lexeme, names and hexadecimal numbers aside. -/
def ends (c : CodePoint) : Bool :=
  !c.joins && !(Text.ofString "lLxX").contains c && !c.isPlainHexDigit && !c.isDigit

theorem ne_of_class {test : CodePoint → Bool} {c d : CodePoint} (inside : test c = true)
    (outside : test d = false) : c ≠ d := by
  rintro rfl
  simp [inside] at outside

theorem contains_of_class {test : CodePoint → Bool} {c : CodePoint} {marks : Text}
    (outside : (marks.all fun d => !test d) = true) (inside : test c = true) :
    marks.contains c = false := by
  rw [Bool.eq_false_iff]
  intro found
  have other := List.all_eq_true.1 outside c (List.contains_iff_mem.1 found)
  simp [inside] at other

end CodePoint

open CodePoint

namespace Token

/-! ## How numbers are read -/

section

variable {s : Text} {kind : Kind} {n : Nat}

/-- How a number to base ten is read: as its digits, or further if a mark of a float follows. -/
inductive DecimalReading (s : Text) : Kind → Nat → Prop
  | integer {whole : Nat} : plainDigitsLength s = .ok whole →
      ¬headIn ".eEfFdD" (s.drop whole) = true → DecimalReading s .decimalInteger whole
  | float {whole fraction exponent n : Nat} : plainDigitsLength s = .ok whole →
      headIn ".eEfFdD" (s.drop whole) = true → extend s whole "." plainDigitsLength = .ok fraction →
      extend s fraction "eE" signedLength = .ok exponent →
      extend s exponent "fFdD" (fun _ => pure 0) = .ok n → DecimalReading s .decimalFloat n

/-- How a number to base sixteen is read. A float needs an exponent. -/
inductive HexReading (s : Text) : Kind → Nat → Prop
  | integer {digits : Nat} : digitsLength isPlainHexDigit (s.drop 2) = .ok digits →
      ¬headIn ".pP" (s.drop (2 + digits)) = true → HexReading s .hexInteger (2 + digits)
  | float {digits fraction exponent n : Nat} :
      digitsLength isPlainHexDigit (s.drop 2) = .ok digits →
      headIn ".pP" (s.drop (2 + digits)) = true →
      extend s (2 + digits) "." (digitsLength isPlainHexDigit) = .ok fraction →
      headIn "pP" (s.drop fraction) = true → extend s fraction "pP" signedLength = .ok exponent →
      extend s exponent "fFdD" (fun _ => pure 0) = .ok n → HexReading s .hexFloat n

/-- How a number is read. Its base is told by what follows a zero. -/
inductive NumberReading (s : Text) : Kind → Nat → Prop
  | decimal {kind : Kind} {n : Nat} : (s.head? = some (ofChar '0') →
      (s.drop 1).isEmpty = false ∧ ¬headIn "xX" (s.drop 1) = true ∧
        ¬headIn "bB" (s.drop 1) = true ∧ ¬headIn "01234567" (s.drop 1) = true) →
      DecimalReading s kind n → NumberReading s kind n
  | hex {kind : Kind} {n : Nat} : s.head? = some (ofChar '0') → headIn "xX" (s.drop 1) = true →
      HexReading s kind n → NumberReading s kind n
  | binary {n : Nat} : s.head? = some (ofChar '0') → headIn "bB" (s.drop 1) = true →
      digitsLength isBinaryDigit (s.drop 2) = .ok n → NumberReading s .binaryInteger (2 + n)
  | octal {n : Nat} : s.head? = some (ofChar '0') → headIn "01234567" (s.drop 1) = true →
      digitsLength isOctalDigit (s.drop 1) = .ok n → NumberReading s .octalInteger (1 + n)

theorem decimalLength_eq_ok : decimalLength s = .ok (kind, n) ↔ DecimalReading s kind n := by
  constructor
  · intro read
    rw [decimalLength] at read
    obtain ⟨whole, readWhole, read⟩ := bind_eq_ok.1 read
    split at read
    case isTrue float =>
      obtain ⟨fraction, readFraction, read⟩ := bind_eq_ok.1 read
      obtain ⟨exponent, readExponent, read⟩ := bind_eq_ok.1 read
      obtain ⟨suffix, readSuffix, read⟩ := bind_eq_ok.1 read
      obtain ⟨rfl, rfl⟩ := Prod.mk.inj (Except.ok.inj read)
      exact .float readWhole float readFraction readExponent readSuffix
    case isFalse integer =>
      obtain ⟨rfl, rfl⟩ := Prod.mk.inj (Except.ok.inj read)
      exact .integer readWhole integer
  · rintro (⟨whole, integer⟩ | ⟨whole, float, fraction, exponent, suffix⟩)
    · rw [decimalLength, whole, ok_bind, if_neg integer]
      rfl
    · rw [decimalLength, whole, ok_bind, if_pos float, fraction, ok_bind, exponent, ok_bind, suffix]
      rfl

theorem hexLength_eq_ok : hexLength s = .ok (kind, n) ↔ HexReading s kind n := by
  constructor
  · intro read
    rw [hexLength] at read
    obtain ⟨digits, readDigits, read⟩ := bind_eq_ok.1 read
    simp only at read
    split at read
    case isTrue float =>
      obtain ⟨fraction, readFraction, read⟩ := bind_eq_ok.1 read
      split at read
      case isTrue marked =>
        obtain ⟨exponent, readExponent, read⟩ := bind_eq_ok.1 read
        obtain ⟨suffix, readSuffix, read⟩ := bind_eq_ok.1 read
        obtain ⟨rfl, rfl⟩ := Prod.mk.inj (Except.ok.inj read)
        exact .float readDigits float readFraction marked readExponent readSuffix
      case isFalse => cases read
    case isFalse integer =>
      obtain ⟨rfl, rfl⟩ := Prod.mk.inj (Except.ok.inj read)
      exact .integer readDigits integer
  · rintro (⟨digits, integer⟩ | ⟨digits, float, fraction, marked, exponent, suffix⟩)
    · rw [hexLength, digits, ok_bind]
      simp only
      rw [if_neg integer]
      rfl
    · rw [hexLength, digits, ok_bind]
      simp only
      rw [if_pos float, fraction, ok_bind, if_pos marked, exponent, ok_bind, suffix]
      rfl

theorem headIn_apart {marks others : Text} (apart : (others.all fun d => !marks.contains d) = true)
    (found : headIn marks s = true) : s.isEmpty = false ∧ ¬headIn others s = true := by
  cases s with
  | nil => cases found
  | cons c s =>
    refine ⟨rfl, Bool.eq_false_iff.1 ?_⟩
    exact @contains_of_class (fun d => marks.contains d) _ _ apart found

theorem numberLength_eq_ok : numberLength s = .ok (kind, n) ↔ NumberReading s kind n := by
  constructor
  · intro read
    rw [numberLength] at read
    split at read
    case isFalse other => exact .decimal (absurd · other) (decimalLength_eq_ok.1 read)
    case isTrue zero =>
      simp only at read
      split at read
      · cases read
      rename_i more
      split at read
      · rename_i mark
        exact .hex zero mark (hexLength_eq_ok.1 read)
      rename_i noHex
      split at read
      · rename_i mark
        obtain ⟨m, digits, read⟩ := bind_eq_ok.1 read
        obtain ⟨rfl, rfl⟩ := Prod.mk.inj (Except.ok.inj read)
        exact .binary zero mark digits
      rename_i noBinary
      split at read
      · rename_i mark
        obtain ⟨m, digits, read⟩ := bind_eq_ok.1 read
        obtain ⟨rfl, rfl⟩ := Prod.mk.inj (Except.ok.inj read)
        exact .octal zero mark digits
      · rename_i noOctal
        exact .decimal (fun _ => ⟨Bool.eq_false_iff.2 more, noHex, noBinary, noOctal⟩)
          (decimalLength_eq_ok.1 read)
  · intro reading
    rw [numberLength]
    cases reading with
    | decimal plain reading =>
      have read := decimalLength_eq_ok.2 reading
      by_cases zero : s.head? = some (ofChar '0')
      · obtain ⟨more, noHex, noBinary, noOctal⟩ := plain zero
        simp only
        rw [if_pos zero, if_neg (Bool.eq_false_iff.1 more), if_neg noHex, if_neg noBinary,
          if_neg noOctal, read]
      · rw [if_neg zero, read]
    | hex zero mark reading =>
      obtain ⟨more, -⟩ := @headIn_apart _ _ [] rfl mark
      simp only
      rw [if_pos zero, if_neg (Bool.eq_false_iff.1 more), if_pos mark, hexLength_eq_ok.2 reading]
    | binary zero mark digits =>
      obtain ⟨more, noHex⟩ := @headIn_apart _ "bB" "xX" (by decide) mark
      simp only
      rw [if_pos zero, if_neg (Bool.eq_false_iff.1 more), if_neg noHex, if_pos mark, digits]
      rfl
    | octal zero mark digits =>
      obtain ⟨more, noHex⟩ := @headIn_apart _ "01234567" "xX" (by decide) mark
      obtain ⟨-, noBinary⟩ := @headIn_apart _ "01234567" "bB" (by decide) mark
      simp only
      rw [if_pos zero, if_neg (Bool.eq_false_iff.1 more), if_neg noHex, if_neg noBinary,
        if_pos mark, digits]
      rfl

end

/-! ## How far a number looks ahead -/

/-- A change of what follows a lexeme that no reader of lexemes notices. -/
inductive Exchange : Text → Text → Prop
  | same {c : CodePoint} (s t : Text) : c.joins = false → Exchange (c :: s) (c :: t)
  | ends {s : Text} {c : CodePoint} (t : Text) : (∀ d ∈ s.head?, d.lingers = false) →
      c.ends = true → Exchange s (c :: t)

/-- A reader that notices no exchange behind what it reads. -/
def Steady {α : Type} (read : Text → Except NumberFailure α) (size : α → Nat)
    (s t : Text) : Prop :=
  ∀ u a, read (u ++ s) = .ok a → size a ≤ u.length → read (u ++ t) = .ok a

theorem length_le_dropWhile_append (p : CodePoint → Bool) {c : CodePoint} (front back : Text)
    (stop : p c = false) : back.length + 1 ≤ ((front ++ c :: back).dropWhile p).length := by
  rw [List.dropWhile_append]
  split
  · simp [stop]
  · simp

section

variable {isDigit : CodePoint → Bool} {s t : Text}

theorem length_lt_of_digit {c : CodePoint} (u later : Text) (digit : c ≠ CodePoint.ofChar '_') :
    u.length < ((u ++ c :: later).reverse.dropWhile fun d : CodePoint => d = '_').length := by
  have long := length_le_dropWhile_append (fun d : CodePoint => decide (d = CodePoint.ofChar '_'))
    later.reverse u.reverse (c := c) (by simpa using digit)
  rw [List.length_reverse] at long
  rw [List.reverse_append, List.reverse_cons, List.append_assoc, List.singleton_append]
  omega

theorem headIn_cons (choices : Text) (c : CodePoint) (s : Text) :
    headIn choices (c :: s) = choices.contains c := rfl

theorem digitsLength_of_run {run : Text} (more : s ≠ [])
    (ran : (s.takeWhile fun c : CodePoint => isDigit c || c = '_') = run) :
    digitsLength isDigit s = .ok ((run.reverse.dropWhile fun c : CodePoint => c = '_').length
      + if headIn "lL" (s.drop run.length) then 1 else 0) := by
  subst ran
  rw [digitsLength, if_neg (by simpa using more)]

theorem run_append_ends (hex : ∀ c, isDigit c = true → c.isPlainHexDigit = true)
    {c : CodePoint} (u : Text) (all : ∀ d ∈ u, (isDigit d || d = '_') = true)
    (stop : c.isPlainHexDigit = false) (other : c ≠ CodePoint.ofChar '_') :
    ((u ++ c :: s).takeWhile fun d : CodePoint => isDigit d || d = '_') = u := by
  have noDigit : isDigit c = false := by
    rw [Bool.eq_false_iff]
    intro digit
    simp [hex c digit] at stop
  rw [List.takeWhile_append_of_pos all]
  simp [noDigit, other]

theorem not_digit_of_short {c : CodePoint} {n : Nat} (u : Text)
    (all : ∀ d ∈ u, (isDigit d || d = '_') = true) (other : c ≠ CodePoint.ofChar '_')
    (read : digitsLength isDigit (u ++ c :: s) = .ok n) (short : n ≤ u.length) :
    isDigit c = false := by
  rw [Bool.eq_false_iff]
  intro digit
  obtain ⟨later, ran⟩ : ∃ later,
      ((u ++ c :: s).takeWhile fun d : CodePoint => isDigit d || d = '_') = u ++ c :: later := by
    rw [List.takeWhile_append_of_pos all]
    simp [digit]
  rw [digitsLength_of_run (by simp) ran] at read
  have long := length_lt_of_digit u later other
  simp only [Except.ok.injEq] at read
  omega

theorem steady_digitsLength (hex : ∀ c, isDigit c = true → c.isPlainHexDigit = true)
    (exchange : Exchange s t) : Steady (digitsLength isDigit) id s t := by
  intro u n read short
  have nonempty : u ++ s ≠ [] := by
    intro empty
    simp [digitsLength, empty] at read
  by_cases all : ∀ d ∈ u, (isDigit d || d = '_') = true
  · cases exchange with
    | @same c s t alone =>
      have other : c ≠ CodePoint.ofChar '_' := (ne_of_class (by decide) alone).symm
      have noDigit := not_digit_of_short u all other read short
      have run (later : Text) :
          ((u ++ c :: later).takeWhile fun d : CodePoint => isDigit d || d = '_') = u := by
        rw [List.takeWhile_append_of_pos all]
        simp [noDigit, other]
      rw [digitsLength_of_run nonempty (run s)] at read
      rw [digitsLength_of_run (by simp) (run t), ← read]
      simp [headIn]
    | @ends _ c t quiet stop =>
      have other : c ≠ CodePoint.ofChar '_' := ne_of_class stop (by decide)
      have letter : (Text.ofString "lL").contains c = false := contains_of_class (by decide) stop
      have noHex : c.isPlainHexDigit = false := by
        simp only [CodePoint.ends, Bool.and_eq_true, Bool.not_eq_true'] at stop
        exact stop.1.2
      have run := run_append_ends (s := t) hex u all noHex other
      have before : ((u ++ s).takeWhile fun d : CodePoint => isDigit d || d = '_') = u ∧
          headIn (Text.ofString "lL") s = false := by
        cases s with
        | nil =>
          rw [List.append_nil]
          exact ⟨List.takeWhile_eq_self_iff.2 all, rfl⟩
        | cons d s =>
          have quiet : (!d.lingers) = true := by simpa using quiet d (by simp)
          have apart : d ≠ CodePoint.ofChar '_' :=
            @ne_of_class (fun d => !d.lingers) _ _ quiet (by decide)
          have noDigit := not_digit_of_short u all apart read short
          constructor
          · rw [List.takeWhile_append_of_pos all]
            simp [noDigit, apart]
          · exact @contains_of_class (fun d => !d.lingers) _ _ (by decide) quiet
      rw [digitsLength_of_run nonempty before.1] at read
      rw [digitsLength_of_run (by simp) run, ← read]
      have after : headIn (Text.ofString "lL") ((u ++ c :: t).drop u.length) = false := by
        simpa [headIn_cons] using letter
      have ahead : headIn (Text.ofString "lL") ((u ++ s).drop u.length) = false := by
        simpa using before.2
      rw [after, ahead]
  · have inside (later : Text) :
        ((u ++ later).takeWhile fun d : CodePoint => isDigit d || d = '_')
          = u.takeWhile fun d : CodePoint => isDigit d || d = '_' := by
      rw [List.takeWhile_append, if_neg]
      intro whole
      apply all
      exact List.takeWhile_eq_self_iff.1 ((List.takeWhile_prefix _).eq_of_length whole)
    have shorter : (u.takeWhile fun d : CodePoint => isDigit d || d = '_').length < u.length := by
      apply Nat.lt_of_le_of_ne (List.takeWhile_prefix _).length_le
      intro whole
      exact all (List.takeWhile_eq_self_iff.1 ((List.takeWhile_prefix _).eq_of_length whole))
    have stillThere : u ++ t ≠ [] := by
      intro empty
      simp only [List.append_eq_nil_iff] at empty
      simp [empty.1] at shorter
    rw [digitsLength_of_run nonempty (inside s)] at read
    rw [digitsLength_of_run stillThere (inside t), ← read,
      List.drop_append_of_le_length (Nat.le_of_lt shorter),
      List.drop_append_of_le_length (Nat.le_of_lt shorter)]
    cases rest : u.drop (u.takeWhile fun d : CodePoint => isDigit d || d = '_').length with
    | nil =>
      rw [List.drop_eq_nil_iff] at rest
      omega
    | cons d rest => rfl

/-- No mark stands behind an exchange unless it stood there before. -/
theorem headIn_of_exchange {marks : Text} (quiet : (marks.all fun d => !d.ends) = true)
    (exchange : Exchange s t) (found : headIn marks t = true) : headIn marks s = true := by
  cases exchange with
  | same => exact found
  | ends t _ stop =>
    rw [headIn_cons, contains_of_class quiet stop] at found
    simp at found

theorem headIn_drop_append {marks u : Text} {n : Nat} (inside : n < u.length) :
    headIn marks ((u ++ s).drop n) = headIn marks ((u ++ t).drop n) := by
  rw [List.drop_append_of_le_length (Nat.le_of_lt inside),
    List.drop_append_of_le_length (Nat.le_of_lt inside)]
  cases rest : u.drop n with
  | nil =>
    rw [List.drop_eq_nil_iff] at rest
    omega
  | cons c rest => rfl

theorem not_headIn_drop {marks u : Text} {n : Nat} (inside : n ≤ u.length)
    (behind : n = u.length → headIn marks t = true → headIn marks s = true)
    (none : ¬headIn marks ((u ++ s).drop n) = true) :
    ¬headIn marks ((u ++ t).drop n) = true := by
  rcases Nat.lt_or_eq_of_le inside with inside | rfl
  · rwa [headIn_drop_append (t := t) inside] at none
  · simp only [List.drop_left] at none ⊢
    exact fun mark => none (behind rfl mark)

theorem steady_plainDigitsLength (exchange : Exchange s t) :
    Steady plainDigitsLength id s t :=
  steady_digitsLength (fun c digit => by simp [isPlainHexDigit, digit]) exchange

theorem steady_signedLength (exchange : Exchange s t) : Steady signedLength id s t := by
  intro u n read short
  have plain := steady_plainDigitsLength exchange
  simp only [signedLength] at read ⊢
  cases u with
  | nil =>
    obtain ⟨m, tail, sum⟩ := bind_eq_ok.1 read
    simp only [pure_eq_ok, Except.ok.injEq] at sum
    have unsigned : headIn (Text.ofString "-+") s = false := by
      rw [Bool.eq_false_iff]
      intro signed
      rw [List.nil_append, signed] at sum
      simp [← sum] at short
    have still : headIn (Text.ofString "-+") t = false := by
      rw [Bool.eq_false_iff]
      intro signed
      simp [headIn_of_exchange (by decide) exchange signed] at unsigned
    simp only [List.nil_append, unsigned, Bool.false_eq_true, if_false, List.drop_zero] at tail sum
    have after := plain [] m tail (by simpa [← sum] using short)
    simp only [List.nil_append] at after
    simp only [List.nil_append, still, Bool.false_eq_true, if_false, List.drop_zero, after]
    simp [← sum, pure_eq_ok]
  | cons c u =>
    obtain ⟨m, tail, sum⟩ := bind_eq_ok.1 read
    simp only [pure_eq_ok, Except.ok.injEq] at sum
    apply bind_eq_ok.2
    by_cases signed : headIn (Text.ofString "-+") (c :: u ++ s) = true
    · have still : headIn (Text.ofString "-+") (c :: u ++ t) = true := signed
      rw [if_pos signed] at tail sum
      rw [if_pos still]
      exact ⟨m, plain u m tail (by simp at short ⊢; omega), by simp [pure_eq_ok, sum]⟩
    · have still : ¬headIn (Text.ofString "-+") (c :: u ++ t) = true := signed
      rw [if_neg signed] at tail sum
      rw [if_neg still]
      exact ⟨m, plain (c :: u) m tail (by simp at short ⊢; omega), by simp [pure_eq_ok, ← sum]⟩

theorem le_extend {u marks : Text} {base n : Nat} {more : Text → Except NumberFailure Nat}
    (read : extend u base marks more = .ok n) :
    base ≤ n ∧ (headIn marks (u.drop base) = true → base < n) := by
  rw [extend] at read
  split at read
  · obtain ⟨m, _, sum⟩ := bind_eq_ok.1 read
    simp only [pure_eq_ok, Except.ok.injEq] at sum
    omega
  · simp only [pure_eq_ok, Except.ok.injEq] at read
    simp_all

theorem steady_extend {u marks : Text} {base n : Nat} {more : Text → Except NumberFailure Nat}
    (steady : Steady more id s t)
    (behind : ¬headIn marks ((u ++ s).drop base) = true → headIn marks t = true →
      headIn marks s = true)
    (read : extend (u ++ s) base marks more = .ok n) (short : n ≤ u.length) :
    extend (u ++ t) base marks more = .ok n := by
  obtain ⟨least, further⟩ := le_extend read
  rw [extend] at read ⊢
  by_cases found : headIn marks ((u ++ s).drop base) = true
  · have before := further found
    rw [if_pos found] at read
    rw [headIn_drop_append (t := t) (by omega)] at found
    rw [if_pos found]
    obtain ⟨m, tail, sum⟩ := bind_eq_ok.1 read
    simp only [pure_eq_ok, Except.ok.injEq] at sum
    rw [List.drop_append_of_le_length (by omega)] at tail ⊢
    rw [steady (u.drop (base + 1)) m tail (by simp; omega)]
    simp [sum, pure_eq_ok]
  · rw [if_neg found] at read
    rw [if_neg (not_headIn_drop (by omega) (fun _ => behind found) found)]
    exact read

theorem steady_nothing : Steady (fun _ => pure 0) id s t :=
  fun _ _ same _ => same

theorem steady_decimalLength (exchange : Exchange s t) :
    Steady decimalLength Prod.snd s t := by
  rintro u ⟨kind, n⟩ read short
  have plain := steady_plainDigitsLength exchange
  rw [decimalLength_eq_ok] at read ⊢
  cases read with
  | integer readWhole none =>
    exact .integer (plain u n readWhole short)
      (not_headIn_drop short (fun _ => headIn_of_exchange (by decide) exchange) none)
  | @float whole fraction exponent _ readWhole float readFraction readExponent readSuffix =>
    obtain ⟨leWhole, ltWhole⟩ := le_extend readFraction
    obtain ⟨leFraction, ltFraction⟩ := le_extend readExponent
    obtain ⟨leExponent, ltExponent⟩ := le_extend readSuffix
    simp only at short
    have inside : whole < u.length := by
      apply Nat.lt_of_not_le
      intro all
      obtain rfl : fraction = whole := by omega
      obtain rfl : exponent = fraction := by omega
      cases rest : (u ++ s).drop exponent with
      | nil => simp [rest, headIn] at float
      | cons c rest =>
        simp only [rest, headIn_cons] at float ltWhole ltFraction ltExponent
        have marks : (Text.ofString ".").contains c = true ∨ (Text.ofString "eE").contains c = true
            ∨ (Text.ofString "fFdD").contains c = true := by
          simp only [Text.ofString, List.contains_iff_mem] at float ⊢
          simp only [String.reduceToList, List.map_cons, List.map_nil, List.mem_cons,
            List.not_mem_nil, or_false] at float ⊢
          rcases float with mark | mark | mark | mark | mark | mark | mark <;> simp [mark]
        rcases marks with mark | mark | mark
        · exact Nat.lt_irrefl _ (ltWhole mark)
        · exact Nat.lt_irrefl _ (ltFraction mark)
        · have := ltExponent mark
          omega
    rw [headIn_drop_append (t := t) inside] at float
    exact .float (plain u whole readWhole (by simp; omega)) float
      (steady_extend plain (fun _ => headIn_of_exchange (by decide) exchange) readFraction
        (by omega))
      (steady_extend (steady_signedLength exchange)
        (fun _ => headIn_of_exchange (by decide) exchange)
        readExponent (by omega))
      (steady_extend steady_nothing (fun _ => headIn_of_exchange (by decide) exchange) readSuffix
        (by omega))

/-- A whole number to base sixteen may not be followed by an exponent's mark or a dot. -/
theorem HexReading.steady {u : Text} {kind : Kind} {n : Nat} (exchange : Exchange s t)
    (behind : n = u.length → kind = .hexInteger → headIn ".pP" t = true → headIn ".pP" s = true)
    (long : 2 ≤ u.length) (reading : HexReading (u ++ s) kind n) (short : n ≤ u.length) :
    HexReading (u ++ t) kind n := by
  have plain : Steady (digitsLength isPlainHexDigit) id s t :=
    steady_digitsLength (fun c digit => digit) exchange
  have readDigits {digits : Nat} (least : 2 + digits ≤ u.length)
      (read : digitsLength isPlainHexDigit ((u ++ s).drop 2) = .ok digits) :
      digitsLength isPlainHexDigit ((u ++ t).drop 2) = .ok digits := by
    rw [List.drop_append_of_le_length long] at read ⊢
    exact plain (u.drop 2) digits read (by simp; omega)
  cases reading with
  | integer digits none =>
    exact .integer (readDigits short digits)
      (not_headIn_drop short (fun whole => behind whole rfl) none)
  | @float _ fraction _ _ digits float readFraction marked readExponent readSuffix =>
    obtain ⟨leWhole, -⟩ := le_extend readFraction
    have ltFraction := (le_extend readExponent).2 marked
    have leExponent := (le_extend readSuffix).1
    have readExponent := steady_extend (steady_signedLength exchange) (absurd marked) readExponent
      (by omega)
    rw [headIn_drop_append (t := t) (by omega)] at float marked
    exact .float (readDigits (by omega) digits) float
      (steady_extend plain (fun _ => headIn_of_exchange (by decide) exchange) readFraction
        (by omega)) marked readExponent
      (steady_extend steady_nothing (fun _ => headIn_of_exchange (by decide) exchange) readSuffix
        (by omega))

theorem HexReading.two_le {kind : Kind} {n : Nat} (reading : HexReading s kind n) : 2 ≤ n := by
  cases reading with
  | integer => exact Nat.le_add_right 2 _
  | float _ _ fraction _ exponent suffix =>
    have leWhole := (le_extend fraction).1
    have leFraction := (le_extend exponent).1
    have leExponent := (le_extend suffix).1
    omega

theorem isOctalDigit_of_mark {c : CodePoint}
    (mark : (Text.ofString "01234567").contains c = true) : c.isOctalDigit = true := by
  have all : ∀ d ∈ Text.ofString "01234567", d.isOctalDigit = true := by decide
  exact all c (List.contains_iff_mem.1 mark)

theorem isPlainHexDigit_of_isOctalDigit {c : CodePoint} (digit : c.isOctalDigit = true) :
    c.isPlainHexDigit = true := by
  simp only [isOctalDigit, isPlainHexDigit, isPlainDigit, Bool.and_eq_true, Bool.or_eq_true,
    decide_eq_true_eq] at digit ⊢
  omega

theorem isPlainHexDigit_of_isBinaryDigit {c : CodePoint} (digit : c.isBinaryDigit = true) :
    c.isPlainHexDigit = true := by
  simp only [isBinaryDigit, isPlainHexDigit, isPlainDigit, Bool.and_eq_true, Bool.or_eq_true,
    decide_eq_true_eq] at digit ⊢
  omega

/-- A number is read alike when what follows it is exchanged. -/
theorem steady_numberLength {c : CodePoint} {u : Text} {kind : Kind} {n : Nat}
    (exchange : Exchange s t)
    (behind : n = u.length + 1 → kind = .hexInteger → headIn ".pP" t = true →
      headIn ".pP" s = true)
    (read : numberLength (c :: u ++ s) = .ok (kind, n)) (short : n ≤ u.length + 1) :
    numberLength (c :: u ++ t) = .ok (kind, n) := by
  rw [numberLength_eq_ok] at read ⊢
  cases read with
  | decimal plain reading =>
    refine .decimal (fun zero => ?_) (decimalLength_eq_ok.1
      (steady_decimalLength exchange (c :: u) (kind, n) (decimalLength_eq_ok.2 reading) short))
    obtain ⟨-, noHex, noBinary, noOctal⟩ := plain zero
    have still {marks : Text} (quiet : (marks.all fun d => !d.ends) = true)
        (none : ¬headIn marks ((c :: u ++ s).drop 1) = true) :
        ¬headIn marks ((c :: u ++ t).drop 1) = true :=
      not_headIn_drop (by simp) (fun _ => headIn_of_exchange quiet exchange) none
    refine ⟨?_, still (by decide) noHex, still (by decide) noBinary, still (by decide) noOctal⟩
    cases exchange <;> simp
  | hex zero mark reading =>
    have long := reading.two_le
    obtain ⟨d, u, rfl⟩ : ∃ d v, u = d :: v := List.exists_cons_of_length_pos (by omega)
    exact .hex zero mark (reading.steady exchange behind (by simp) short)
  | @binary m zero mark digits =>
    obtain ⟨d, u, rfl⟩ : ∃ d v, u = d :: v := List.exists_cons_of_length_pos (by omega)
    have steady := steady_digitsLength (fun _ => isPlainHexDigit_of_isBinaryDigit) exchange
    exact .binary zero mark (steady u m digits (by simp at short ⊢; omega))
  | @octal m zero mark digits =>
    have steady := steady_digitsLength (fun _ => isPlainHexDigit_of_isOctalDigit) exchange
    have digits : digitsLength isOctalDigit (u ++ s) = .ok m := digits
    cases u with
    | cons d u => exact .octal zero mark (steady (d :: u) m digits (by simp at short ⊢; omega))
    | nil =>
      -- The digit that says that the number is octal is passed over, so it stands within.
      obtain rfl : m = 0 := by
        rw [List.length_nil] at short
        omega
      cases s with
      | nil => cases mark
      | cons d s =>
        have digit := isOctalDigit_of_mark mark
        have other : d ≠ ofChar '_' := @ne_of_class isOctalDigit _ _ digit (by decide)
        have := not_digit_of_short [] (by simp) other digits (by simp)
        simp [digit] at this

end

/-! ## No number is longer than its text -/

section

variable {s : Text} {n : Nat}

theorem headIn_length {marks : Text} {base : Nat} (found : headIn marks (s.drop base) = true) :
    base < s.length := by
  apply Nat.lt_of_not_le
  intro all
  rw [List.drop_eq_nil_of_le all] at found
  simp [headIn] at found

theorem digitsLength_le {isDigit : CodePoint → Bool} (read : digitsLength isDigit s = .ok n) :
    n ≤ s.length := by
  have run := (List.takeWhile_prefix (l := s) fun c : CodePoint => isDigit c || c = '_').length_le
  have digits := (List.dropWhile_sublist (l := (s.takeWhile fun c : CodePoint =>
    isDigit c || c = '_').reverse) fun c : CodePoint => c = '_').length_le
  rw [List.length_reverse] at digits
  rw [digitsLength] at read
  split at read
  · simp at read
  · simp only [Except.ok.injEq] at read
    split at read
    · rename_i letter
      have := headIn_length letter
      omega
    · omega

theorem signedLength_le (read : signedLength s = .ok n) : n ≤ s.length := by
  rw [signedLength] at read
  obtain ⟨m, readDigits, sum⟩ := bind_eq_ok.1 read
  simp only [pure_eq_ok, Except.ok.injEq] at sum
  have bound := digitsLength_le readDigits
  rw [List.length_drop] at bound
  split at sum
  · rename_i signed
    have := @headIn_length _ _ 0 signed
    rw [if_pos signed] at bound
    omega
  · omega

theorem extend_le {marks : Text} {base : Nat} {more : Text → Except NumberFailure Nat}
    (bounded : ∀ t m, more t = .ok m → m ≤ t.length) (inside : base ≤ s.length)
    (read : extend s base marks more = .ok n) : n ≤ s.length := by
  rw [extend] at read
  split at read
  · rename_i found
    have := headIn_length found
    obtain ⟨m, tail, sum⟩ := bind_eq_ok.1 read
    simp only [pure_eq_ok, Except.ok.injEq] at sum
    have := bounded _ _ tail
    rw [List.length_drop] at this
    omega
  · simp only [pure_eq_ok, Except.ok.injEq] at read
    omega

theorem suffix_le (t : Text) (m : Nat)
    (read : (pure 0 : Except NumberFailure Nat) = .ok m) : m ≤ t.length := by
  simp only [pure_eq_ok, Except.ok.injEq] at read
  omega

theorem DecimalReading.le {kind : Kind} (reading : DecimalReading s kind n) : n ≤ s.length := by
  cases reading with
  | integer whole => exact digitsLength_le whole
  | float whole _ fraction exponent suffix =>
    have leFraction := extend_le (fun _ _ => digitsLength_le) (digitsLength_le whole) fraction
    have leExponent := extend_le (fun _ _ => signedLength_le) leFraction exponent
    exact extend_le suffix_le leExponent suffix

theorem HexReading.le {kind : Kind} (long : 2 ≤ s.length) (reading : HexReading s kind n) :
    n ≤ s.length := by
  have leDigits {digits : Nat} (read : digitsLength isPlainHexDigit (s.drop 2) = .ok digits) :
      2 + digits ≤ s.length := by
    have le := digitsLength_le read
    rw [List.length_drop] at le
    omega
  cases reading with
  | integer digits => exact leDigits digits
  | float digits _ fraction _ exponent suffix =>
    have leFraction := extend_le (fun _ _ => digitsLength_le) (leDigits digits) fraction
    have leExponent := extend_le (fun _ _ => signedLength_le) leFraction exponent
    exact extend_le suffix_le leExponent suffix

theorem numberLength_le {kind : Kind} (read : numberLength s = .ok (kind, n)) :
    n ≤ s.length := by
  cases numberLength_eq_ok.1 read with
  | decimal _ reading => exact reading.le
  | hex _ mark reading =>
    have long : 1 < s.length := headIn_length mark
    exact reading.le long
  | binary _ mark digits =>
    have long := headIn_length mark
    have le := digitsLength_le digits
    rw [List.length_drop] at le
    omega
  | octal _ mark digits =>
    have long := headIn_length mark
    have le := digitsLength_le digits
    rw [List.length_drop] at le
    omega

end

/-! ## Every number has code points, and only such as show -/

theorem DecimalReading.pos {c : CodePoint} {s : Text} {kind : Kind} {n : Nat}
    (starts : c.isPlainDigit = true ∨ c = ofChar '.') (reading : DecimalReading (c :: s) kind n) :
    0 < n := by
  have some {whole : Nat} (digit : c.isPlainDigit = true)
      (read : plainDigitsLength (c :: s) = .ok whole) : 0 < whole := by
    have other : c ≠ ofChar '_' := @ne_of_class isPlainDigit _ _ digit (by decide)
    apply Nat.pos_of_ne_zero
    rintro rfl
    have := not_digit_of_short [] (by simp) other read (by simp)
    simp [digit] at this
  cases reading with
  | integer whole none =>
    rcases starts with digit | rfl
    · exact some digit whole
    · apply Nat.pos_of_ne_zero
      rintro rfl
      exact none rfl
  | @float m _ _ _ whole _ fraction exponent suffix =>
    obtain ⟨leWhole, ltWhole⟩ := le_extend fraction
    have leFraction := (le_extend exponent).1
    have leExponent := (le_extend suffix).1
    rcases starts with digit | rfl
    · have := some digit whole
      omega
    · rcases Nat.eq_zero_or_pos m with rfl | long
      · have := ltWhole rfl
        omega
      · omega

theorem numberLength_pos {c : CodePoint} {s : Text} {kind : Kind} {n : Nat}
    (starts : c.isPlainDigit = true ∨ c = ofChar '.')
    (read : numberLength (c :: s) = .ok (kind, n)) : 0 < n := by
  cases numberLength_eq_ok.1 read with
  | decimal _ reading => exact reading.pos starts
  | hex _ _ reading => exact Nat.lt_of_lt_of_le Nat.two_pos reading.two_le
  | binary => omega
  | octal => omega

/-- Whether the first `n` code points pass a test. -/
def Solid (test : CodePoint → Bool) (s : Text) (n : Nat) : Prop :=
  ∀ c ∈ s.take n, test c = true

section

variable {test : CodePoint → Bool} {s : Text} {n : Nat}

theorem Solid.add {m : Nat} (front : Solid test s m) (back : Solid test (s.drop m) n) :
    Solid test s (m + n) := by
  intro c mem
  rw [List.take_add, List.mem_append] at mem
  exact mem.elim (front c) (back c)

theorem Solid.mark {marks : Text} (found : headIn marks s = true)
    (passes : (marks.all test) = true) : Solid test s 1 := by
  cases s with
  | nil => simp [headIn] at found
  | cons d s =>
    intro c mem
    obtain rfl : c = d := by simpa using mem
    exact List.all_eq_true.1 passes c (List.contains_iff_mem.1 found)

theorem isInk_of_isPlainHexDigit {c : CodePoint} (digit : c.isPlainHexDigit = true) :
    c.isInk = true := by
  have other : c ≠ ofChar '\\' := @ne_of_class isPlainHexDigit _ _ digit (by decide)
  simp only [isInk, ne_eq, other, not_false_eq_true, decide_true, Bool.and_true,
    Bool.not_eq_true']
  have inside : c.within [(0x30, 0x39), (0x41, 0x46), (0x61, 0x66)] = true := by
    simp only [isPlainHexDigit, isPlainDigit, Bool.and_eq_true, Bool.or_eq_true, decide_eq_true_eq]
      at digit
    simp only [within]
    grind
  exact not_within_of_rangesApart (by decide +kernel) inside

theorem Solid.digits {isDigit : CodePoint → Bool} (digit : ∀ c, isDigit c = true → test c = true)
    (others : (Text.ofString "_lL").all test = true) (read : digitsLength isDigit s = .ok n) :
    Solid test s n := by
  have marks : test (ofChar '_') = true ∧ (Text.ofString "lL").all test = true := by
    simpa [Text.ofString] using others
  have nonempty : s ≠ [] := by
    rintro rfl
    simp [digitsLength] at read
  rw [digitsLength_of_run nonempty rfl] at read
  simp only [Except.ok.injEq] at read
  have runPrefix := List.takeWhile_prefix (l := s) fun c : CodePoint => isDigit c || c = '_'
  have runVisible : ∀ c ∈ s.takeWhile (fun c : CodePoint => isDigit c || c = '_'),
      test c = true := by
    intro c mem
    have inside := List.mem_takeWhile_imp mem
    simp only [Bool.or_eq_true, decide_eq_true_eq] at inside
    rcases inside with isDigit | rfl
    · exact digit c isDigit
    · exact marks.1
  generalize s.takeWhile (fun c : CodePoint => isDigit c || c = '_') = run at *
  have digits := (List.dropWhile_sublist (l := run.reverse)
    fun c : CodePoint => c = '_').length_le
  rw [List.length_reverse] at digits
  have whole : Solid test s run.length := by
    intro c mem
    rw [← List.prefix_iff_eq_take.1 runPrefix] at mem
    exact runVisible c mem
  split at read
  · rename_i letter
    have longer : Solid test s (run.length + 1) := whole.add (.mark letter marks.2)
    intro c mem
    exact longer c ((List.take_prefix_take_left (by omega)).subset mem)
  · intro c mem
    exact whole c ((List.take_prefix_take_left (by omega)).subset mem)

theorem solid_digitsLength {isDigit : CodePoint → Bool}
    (hex : ∀ c, isDigit c = true → c.isPlainHexDigit = true)
    (read : digitsLength isDigit s = .ok n) : Solid isInk s n :=
  .digits (fun c digit => isInk_of_isPlainHexDigit (hex c digit)) (by decide) read

theorem solid_plainDigitsLength (read : plainDigitsLength s = .ok n) : Solid isInk s n :=
  solid_digitsLength (fun c digit => by simp [isPlainHexDigit, digit]) read

theorem solid_signedLength (read : signedLength s = .ok n) : Solid isInk s n := by
  rw [signedLength] at read
  obtain ⟨m, readDigits, sum⟩ := bind_eq_ok.1 read
  simp only [pure_eq_ok, Except.ok.injEq] at sum
  subst sum
  have digits := solid_plainDigitsLength readDigits
  split
  · rename_i signed
    simp only [signed, if_true] at digits
    exact (Solid.mark signed (by decide)).add digits
  · rename_i unsigned
    simpa [unsigned] using digits

theorem solid_extend {marks : Text} {base : Nat} {more : Text → Except NumberFailure Nat}
    (front : Solid isInk s base) (visible : (marks.all isInk) = true)
    (back : ∀ t m, more t = .ok m → Solid isInk t m) (read : extend s base marks more = .ok n) :
    Solid isInk s n := by
  rw [extend] at read
  split at read
  · rename_i found
    obtain ⟨m, tail, sum⟩ := bind_eq_ok.1 read
    simp only [pure_eq_ok, Except.ok.injEq] at sum
    subst sum
    exact (front.add (.mark found visible)).add (back _ _ tail)
  · simp only [pure_eq_ok, Except.ok.injEq] at read
    rwa [← read]

theorem solid_suffix (t : Text) (m : Nat) (read : (pure 0 : Except NumberFailure Nat) = .ok m) :
    Solid isInk t m := by
  simp only [pure_eq_ok, Except.ok.injEq] at read
  subst read
  simp [Solid]

theorem DecimalReading.solid {kind : Kind} (reading : DecimalReading s kind n) :
    Solid isInk s n := by
  cases reading with
  | integer whole => exact solid_plainDigitsLength whole
  | float whole _ fraction exponent suffix =>
    have solid := solid_extend (solid_plainDigitsLength whole) (by decide)
      (fun _ _ => solid_plainDigitsLength) fraction
    have solid := solid_extend solid (by decide) (fun _ _ => solid_signedLength) exponent
    exact solid_extend solid (by decide) solid_suffix suffix

theorem HexReading.solid {kind : Kind} (front : Solid isInk s 2) (reading : HexReading s kind n) :
    Solid isInk s n := by
  have digits {t : Text} {m : Nat} (read : digitsLength isPlainHexDigit t = .ok m) :=
    solid_digitsLength (fun _ digit => digit) read
  cases reading with
  | integer whole => exact front.add (digits whole)
  | float whole _ fraction _ exponent suffix =>
    have solid := solid_extend (front.add (digits whole)) (by decide) (fun _ _ => digits) fraction
    have solid := solid_extend solid (by decide) (fun _ _ => solid_signedLength) exponent
    exact solid_extend solid (by decide) solid_suffix suffix

theorem Solid.zero (passes : test (ofChar '0') = true) (zero : s.head? = some (ofChar '0')) :
    Solid test s 1 := by
  cases s with
  | nil => cases zero
  | cons d s =>
    obtain rfl : d = ofChar '0' := by simpa using zero
    intro c mem
    obtain rfl : c = ofChar '0' := by simpa using mem
    exact passes

theorem solid_numberLength {kind : Kind} (read : numberLength s = .ok (kind, n)) :
    Solid isInk s n := by
  cases numberLength_eq_ok.1 read with
  | decimal _ reading => exact reading.solid
  | hex zero mark reading =>
    exact reading.solid ((Solid.zero (by decide) zero).add (.mark mark (by decide)))
  | binary zero mark digits =>
    exact ((Solid.zero (by decide) zero).add (.mark mark (by decide))).add
      (solid_digitsLength (fun _ => isPlainHexDigit_of_isBinaryDigit) digits)
  | octal zero _ digits =>
    exact (Solid.zero (by decide) zero).add
      (solid_digitsLength (fun _ => isPlainHexDigit_of_isOctalDigit) digits)

theorem continuesName_of_isPlainHexDigit {c : CodePoint} (digit : c.isPlainHexDigit = true) :
    c.continuesName = true := by
  have all : ∀ n : Fin 0x67, isPlainHexDigit ⟨n, by omega⟩ = true →
      continuesName ⟨n, by omega⟩ = true := by decide +kernel
  have bound : c.val < 0x67 := by
    simp only [isPlainHexDigit, isPlainDigit, Bool.and_eq_true, Bool.or_eq_true,
      decide_eq_true_eq] at digit
    omega
  exact all ⟨c.val, bound⟩ digit

/-- A whole number to base sixteen looks like the end of a name. -/
theorem solid_hexInteger (read : numberLength s = .ok (.hexInteger, n)) :
    Solid continuesName s n := by
  cases numberLength_eq_ok.1 read with
  | decimal _ reading => cases reading
  | hex zero mark reading =>
    have front : Solid continuesName s 2 :=
      (Solid.zero (by decide +kernel) zero).add (.mark mark (by decide +kernel))
    cases reading with
    | integer digits =>
      exact front.add (.digits (fun _ => continuesName_of_isPlainHexDigit)
        (by decide +kernel) digits)

end

end Token

end JavaUnits
