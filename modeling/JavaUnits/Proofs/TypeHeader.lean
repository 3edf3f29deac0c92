import JavaUnits.Proofs.Declaration

/-!
The header of a type's declaration, read off its marks, and what becomes of it when the visibility
is set or taken out.
-/

namespace JavaUnits

open Token


namespace Header

variable {xs ys : List Token}

/-- Tokens in parentheses are passed over, whatever they are. -/
theorem splitAtKeyword?_inner {n m : Nat}
    (parens : balances opensParen closesParen n xs = true)
    (braces : balances opensBrace closesBrace m xs = true) (passed : List Token) :
    splitAtKeyword? passed (n + 1) m (xs ++ ys)
      = splitAtKeyword? (xs.reverse ++ passed) 1 0 ys := by
  induction xs generalizing n m passed with
  | nil =>
    rw [balances, beq_iff_eq] at parens braces
    subst parens braces
    rfl
  | cons t xs ih =>
    rw [balances] at parens braces
    rw [List.cons_append, splitAtKeyword?, List.reverse_cons, List.append_assoc,
      List.singleton_append]
    by_cases opens : t.opensParen = true
    · rw [if_pos opens] at parens ⊢
      have noBrace : t.opensBrace = false := eq_of_isSeparator opens (by decide)
      have other : t.closesBrace = false := eq_of_isSeparator opens (by decide)
      rw [noBrace, other] at braces
      exact ih parens braces _
    rw [if_neg opens] at parens ⊢
    by_cases closes : t.closesParen = true
    · rw [if_pos closes, Bool.and_eq_true, bne_iff_ne] at parens
      rw [if_pos closes]
      have noBrace : t.opensBrace = false := eq_of_isSeparator closes (by decide)
      have other : t.closesBrace = false := eq_of_isSeparator closes (by decide)
      rw [noBrace, other] at braces
      have less := ih parens.2 braces (t :: passed)
      rwa [Nat.sub_add_cancel (by omega)] at less
    rw [if_neg closes] at parens ⊢
    by_cases opensBrace : t.opensBrace = true
    · rw [if_pos opensBrace] at braces ⊢
      rw [if_neg (by omega)]
      exact ih parens braces _
    rw [if_neg opensBrace] at braces ⊢
    by_cases closesBrace : t.closesBrace = true
    · rw [if_pos closesBrace, Bool.and_eq_true, bne_iff_ne] at braces
      rw [if_pos closesBrace]
      exact ih parens braces.2 _
    rw [if_neg closesBrace] at braces ⊢
    rw [if_neg (by omega)]
    exact ih parens braces _

theorem splitAtKeyword?_quiet (xs ys : List Token)
    (quiet : ∀ t ∈ xs, t.opensBrace = false ∧ t.closesBrace = false ∧ t.opensParen = false ∧
      t.closesParen = false ∧ ∀ previous, t.opensType previous = false) (passed : List Token) :
    splitAtKeyword? passed 0 0 (xs ++ ys) = splitAtKeyword? (xs.reverse ++ passed) 0 0 ys := by
  induction xs generalizing passed with
  | nil => rfl
  | cons t xs ih =>
    rw [List.forall_mem_cons] at quiet
    obtain ⟨⟨opens, closes, opensParen, closesParen, none⟩, quiet⟩ := quiet
    rw [List.cons_append, splitAtKeyword?, List.reverse_cons, List.append_assoc,
      List.singleton_append]
    simp only [opens, closes, opensParen, closesParen, none, Bool.false_eq_true, and_false,
      if_false]
    exact ih quiet _

theorem splitAtKeyword?_arguments (arguments : IsArguments xs) (passed : List Token) :
    splitAtKeyword? passed 0 0 (xs ++ ys) = splitAtKeyword? (xs.reverse ++ passed) 0 0 ys := by
  obtain ⟨opening, inner, closing, rfl, opens, closes, parens, braces, -, -⟩ := arguments.parts
  have other : closing.opensParen = false := eq_of_isSeparator closes (by decide)
  rw [List.cons_append, List.append_assoc, splitAtKeyword?, if_pos opens,
    splitAtKeyword?_inner parens braces, List.singleton_append, splitAtKeyword?,
    if_neg (by simp [other]), if_pos closes]
  simp

theorem splitAtKeyword?_marks {ms : List Token} (marks : IsMarks ms) (passed : List Token) :
    splitAtKeyword? passed 0 0 (ms ++ ys) = splitAtKeyword? (ms.reverse ++ passed) 0 0 ys := by
  induction marks generalizing passed with
  | nil => rfl
  | @modifier t ts kind mem _ ih =>
    obtain ⟨opens, closes, opensParen, closesParen, -, none⟩ := isModifier_apart kind mem
    have first := splitAtKeyword?_quiet [t] (ts ++ ys)
      (by simpa using ⟨opens, closes, opensParen, closesParen, none⟩) passed
    rw [List.cons_append, ← List.singleton_append, first, ih]
    simp
  | @annotated sign path arguments ts kind isPath isArguments _ ih =>
    obtain ⟨opens, closes, opensParen, closesParen, -, none⟩ := atSign_apart kind
    have names := isPlainName_of_isPath isPath
    have first := splitAtKeyword?_quiet (sign :: path) (arguments ++ ts ++ ys)
      (List.forall_mem_cons.2 ⟨⟨opens, closes, opensParen, closesParen, none⟩, fun t mem =>
        ⟨(names t mem).opensBrace, (names t mem).closesBrace, (names t mem).opensParen,
          (names t mem).closesParen, (names t mem).opensType⟩⟩) passed
    have second (passed : List Token) : splitAtKeyword? passed 0 0 (arguments ++ (ts ++ ys))
        = splitAtKeyword? (arguments.reverse ++ passed) 0 0 (ts ++ ys) := by
      rcases isArguments with rfl | isArguments
      · rfl
      · exact splitAtKeyword?_arguments isArguments passed
    have flat : sign :: (path ++ (arguments ++ ts)) ++ ys
        = sign :: path ++ (arguments ++ ts ++ ys) := by simp
    rw [flat, first, List.append_assoc, second, ih]
    simp

theorem outsideParens_quiet (xs ys : List Token)
    (quiet : ∀ t ∈ xs, t.opensParen = false ∧ t.closesParen = false) :
    outsideParens 0 (xs ++ ys) = xs ++ outsideParens 0 ys := by
  induction xs with
  | nil => rfl
  | cons t xs ih =>
    rw [List.forall_mem_cons] at quiet
    rw [List.cons_append, outsideParens, if_neg (by simp [quiet.1.1]), if_neg (by simp [quiet.1.2]),
      if_pos rfl, ih quiet.2, List.cons_append]

theorem outsideParens_inner {n : Nat} (parens : balances opensParen closesParen n xs = true) :
    outsideParens (n + 1) (xs ++ ys) = outsideParens 1 ys := by
  induction xs generalizing n with
  | nil =>
    rw [balances, beq_iff_eq] at parens
    subst parens
    rfl
  | cons t xs ih =>
    rw [balances] at parens
    rw [List.cons_append, outsideParens]
    by_cases opens : t.opensParen = true
    · rw [if_pos opens] at parens ⊢
      exact ih parens
    rw [if_neg opens] at parens ⊢
    by_cases closes : t.closesParen = true
    · rw [if_pos closes, Bool.and_eq_true, bne_iff_ne] at parens
      rw [if_pos closes]
      have less := ih parens.2
      rwa [Nat.sub_add_cancel (by omega)] at less
    rw [if_neg closes] at parens ⊢
    rw [if_neg (by omega)]
    exact ih parens

theorem outsideParens_arguments (arguments : IsArguments xs) :
    outsideParens 0 (xs ++ ys) = outsideParens 0 ys := by
  obtain ⟨opening, inner, closing, rfl, opens, closes, parens, -, -, -⟩ := arguments.parts
  have other : closing.opensParen = false := eq_of_isSeparator closes (by decide)
  rw [List.cons_append, List.append_assoc, outsideParens, if_pos opens, outsideParens_inner parens,
    List.singleton_append, outsideParens, if_neg (by simp [other]), if_pos closes]

theorem modifiersOf_modifier {t : Token} {ts : List Token} (kind : t.kind = .modifier)
    (mem : t.value ∈ Token.modifiers) : modifiersOf (t :: ts) = t :: modifiersOf ts := by
  obtain ⟨-, -, opensParen, closesParen, -, -⟩ := isModifier_apart kind mem
  have apart := outsideParens_quiet [t] ts (by simpa using ⟨opensParen, closesParen⟩)
  rw [modifiersOf, ← List.singleton_append, apart, List.singleton_append,
    List.filter_cons_of_pos (by simp [isModifier, kind])]
  rfl

theorem modifiersOf_annotated {sign : Token} {path arguments ts : List Token}
    (kind : sign.kind = .atSign) (names : isPath path = true)
    (isArguments : arguments = [] ∨ IsArguments arguments) :
    modifiersOf (sign :: (path ++ (arguments ++ ts))) = modifiersOf ts := by
  obtain ⟨-, -, opensParen, closesParen, -, -⟩ := atSign_apart kind
  have plain := isPlainName_of_isPath names
  have first := outsideParens_quiet (sign :: path) (arguments ++ ts)
    (List.forall_mem_cons.2 ⟨⟨opensParen, closesParen⟩, fun t mem =>
      ⟨(plain t mem).opensParen, (plain t mem).closesParen⟩⟩)
  have second : outsideParens 0 (arguments ++ ts) = outsideParens 0 ts := by
    rcases isArguments with rfl | isArguments
    · rfl
    · exact outsideParens_arguments isArguments
  have none : (sign :: path).filter isModifier = [] := by
    rw [List.filter_eq_nil_iff, List.forall_mem_cons]
    exact ⟨by simp [isModifier, kind], fun t mem => by simp [(plain t mem).isModifier]⟩
  rw [modifiersOf, ← List.cons_append, first, second, List.filter_append, none, List.nil_append]
  rfl

theorem modifiersOf_append {ms : List Token} (marks : IsMarks ms) (ts : List Token) :
    modifiersOf (ms ++ ts) = modifiersOf ms ++ modifiersOf ts := by
  induction marks with
  | nil => rfl
  | modifier kind mem _ ih =>
    rw [List.cons_append, modifiersOf_modifier kind mem, modifiersOf_modifier kind mem, ih,
      List.cons_append]
  | annotated kind names isArguments _ ih =>
    rw [modifiersOf_annotated kind names isArguments, List.cons_append, List.append_assoc,
      List.append_assoc, modifiersOf_annotated kind names isArguments, ih]

theorem exists_marks {ms xs ys : List Token} {t : Token} (marks : IsMarks ms)
    (split : modifiersOf ms = xs ++ t :: ys) :
    ∃ front back, ms = front ++ t :: back ∧ IsMarks front ∧ IsMarks back ∧
      modifiersOf front = xs ∧ modifiersOf back = ys ∧ t.kind = .modifier ∧
      t.value ∈ Token.modifiers := by
  induction marks generalizing xs with
  | nil => simp [modifiersOf, outsideParens] at split
  | @modifier s ts kind mem marks ih =>
    rw [modifiersOf_modifier kind mem] at split
    cases xs with
    | nil =>
      obtain ⟨rfl, rest⟩ := List.cons.inj split
      exact ⟨[], ts, rfl, .nil, marks, rfl, rest, kind, mem⟩
    | cons x xs =>
      obtain ⟨rfl, rest⟩ := List.cons.inj split
      obtain ⟨front, back, rfl, isFront, isBack, rfl, rfl, facts⟩ := ih rest
      exact ⟨s :: front, back, rfl, .modifier kind mem isFront, isBack,
        modifiersOf_modifier kind mem, rfl, facts⟩
  | @annotated sign path arguments ts kind names isArguments _ ih =>
    rw [modifiersOf_annotated kind names isArguments] at split
    obtain ⟨front, back, rfl, isFront, isBack, rfl, rfl, facts⟩ := ih split
    exact ⟨sign :: (path ++ (arguments ++ front)), back, by simp,
      .annotated kind names isArguments isFront, isBack,
      modifiersOf_annotated kind names isArguments, rfl, facts⟩

theorem last_marks {ms : List Token} (marks : IsMarks ms) :
    ∀ t, ms.getLast? = some t → t.kind = .modifier ∧ t.value ∈ Token.modifiers ∨
      t.kind = .identifier ∨ t.closesParen = true := by
  induction marks with
  | nil => simp
  | @modifier t ts kind mem _ ih =>
    rintro s last
    rw [List.getLast?_cons] at last
    cases behind : ts.getLast? with
    | none =>
      rw [behind] at last
      rw [← Option.some.inj last]
      exact .inl ⟨kind, mem⟩
    | some r =>
      rw [behind] at last
      rw [← Option.some.inj last]
      exact ih r behind
  | @annotated sign path arguments ts kind names isArguments _ ih =>
    obtain ⟨init, name, rfl, is⟩ := isPath_last names
    rintro s last
    cases behind : ts.getLast? with
    | some r =>
      rw [← List.cons_append, ← List.append_assoc, List.getLast?_append, behind,
        Option.some_or] at last
      rw [← Option.some.inj last]
      exact ih r behind
    | none =>
      obtain rfl := List.getLast?_eq_none_iff.1 behind
      rcases isArguments with rfl | isArguments
      · rw [List.append_nil, List.append_nil, ← List.cons_append, List.getLast?_concat] at last
        rw [← Option.some.inj last]
        exact .inr (.inl (of_decide_eq_true is))
      · obtain ⟨opening, inner, closing, rfl, -, closes, -⟩ := isArguments.parts
        have whole : sign :: (init ++ [name] ++ (opening :: (inner ++ [closing]) ++ []))
            = sign :: (init ++ name :: opening :: inner) ++ [closing] := by simp
        rw [whole, List.getLast?_concat] at last
        rw [← Option.some.inj last]
        exact .inr (.inr closes)

end Header

namespace TypeSyntax

open Header

variable {d : TypeSyntax}

/-- The tokens from the name on. -/
def members (d : TypeSyntax) : List Token :=
  d.name :: (d.tail ++ d.opening :: (d.body ++ [d.closing]))

def header (d : TypeSyntax) : Header :=
  let modifiers := modifiersOf d.marks
  { name := d.name.value
    kind := .ofWord d.keyword.value
    modifiers := modifiers.map Token.value
    declaresMain := hasMain 0 [] (d.keyword :: d.members)
    first := (d.marks ++ d.sign).head?.getD d.keyword
    keyword := d.keyword
    visibilityToken := modifiers.find? isVisibility
    anchor := (modifiers.find? fun t => !t.isVisibility).getD (d.sign.head?.getD d.keyword) }

theorem IsFormed.modifiersOf_sign (formed : d.IsFormed) : modifiersOf (d.marks ++ d.sign)
    = modifiersOf d.marks := by
  rw [modifiersOf_append formed.marks]
  rcases formed.sign with none | ⟨t, one, kind⟩
  · simp [none, modifiersOf, outsideParens]
  · have := atSign_apart kind
    simp [one, modifiersOf, outsideParens, this, isModifier, kind]

theorem IsFormed.splitAtKeyword? (formed : d.IsFormed) :
    Header.splitAtKeyword? [] 0 0 d.tokens = some (d.marks ++ d.sign, d.keyword, d.members) := by
  have sign := splitAtKeyword?_quiet d.sign (d.keyword :: d.members) (fun t mem => by
    obtain ⟨opens, closes, opensParen, closesParen, -, none⟩ := formed.sign_apart t mem
    exact ⟨opens, closes, opensParen, closesParen, none⟩) (d.marks.reverse ++ [])
  obtain ⟨opens, closes, opensParen, closesParen, -⟩ := keyword_apart formed.keyword
  have isType := opensType_of_isDot formed.keyword (formed.isDot_sign [] rfl)
  rw [tokens, splitAtKeyword?_marks formed.marks]
  refine sign.trans ?_
  rw [Header.splitAtKeyword?, if_neg (by simp [opensParen]), if_neg (by simp [closesParen]),
    if_neg (by simp [opens]), if_neg (by simp [closes]), if_pos ⟨rfl, rfl, isType⟩]
  simp

theorem IsFormed.ofItem? (formed : d.IsFormed) : Header.ofItem? d.tokens = some d.header := by
  obtain ⟨first, rest, whole⟩ : ∃ first rest, d.tokens = first :: rest := by
    apply List.exists_cons_of_ne_nil
    simp [tokens]
  have split := formed.splitAtKeyword?
  have begins : first = (d.marks ++ d.sign).head?.getD d.keyword := by
    have head := congrArg List.head? whole
    rw [tokens, ← List.append_assoc, List.head?_append] at head
    cases marks : (d.marks ++ d.sign).head? <;> simp_all
  have anchor : ((d.marks ++ d.sign).getLast?.elim d.keyword fun t =>
      if t.kind = .atSign then t else d.keyword) = d.sign.head?.getD d.keyword := by
    rcases formed.sign with none | ⟨t, one, kind⟩
    · rw [none, List.append_nil]
      cases last : d.marks.getLast? with
      | none => rfl
      | some t =>
        rcases last_marks formed.marks t last with ⟨kind, -⟩ | kind | closes
        · simp [kind]
        · simp [kind]
        · simp [(isSeparator_iff.1 closes).1]
    · simp [one, kind]
  have same := formed.modifiersOf_sign
  rw [modifiersOf] at same
  rw [whole] at split ⊢
  simp only [Header.ofItem?, split, members, formed.name, if_true, same]
  rw [header, begins, ← anchor]
  cases (d.marks ++ d.sign).getLast? <;> rfl

theorem IsSound.ofItem? (sound : d.IsSound) : Header.ofItem? d.tokens = some d.header :=
  sound.isFormed.ofItem?

def withMarks (d : TypeSyntax) (marks : List Token) : TypeSyntax :=
  { d with marks := marks }

theorem IsSound.withMarks {ms : List Token} (sound : d.IsSound) (marks : IsMarks ms)
    (visibility : ((modifiersOf ms).filter isVisibility).length ≤ 1) :
    (d.withMarks ms).IsSound :=
  { sound with marks := marks, visibility := visibility }

/-- The marks before and behind the visibility, or the place where a missing one goes. -/
structure Turns (d : TypeSyntax) (front : List Token) (visible : Option Token)
    (back : List Token) : Prop where
  marks : d.marks = front ++ (visible.toList ++ back)
  before : IsMarks front
  behind : IsMarks back
  hidden : ∀ t ∈ modifiersOf front ++ modifiersOf back, t.isVisibility = false
  shows : ∀ t, visible = some t → t.kind = .modifier ∧ t.value ∈ Token.modifiers ∧
    t.isVisibility = true
  begins : visible = none → modifiersOf front = [] ∧
    ∀ t, back.head? = some t → t.kind = .modifier ∧ t.value ∈ Token.modifiers

theorem IsSound.exists_turns (sound : d.IsSound) :
    ∃ front visible back, d.Turns front visible back := by
  have one := sound.visibility
  cases found : (modifiersOf d.marks).find? isVisibility with
  | some v =>
    obtain ⟨visible, xs, ys, split, none⟩ := List.find?_eq_some_iff_append.1 found
    rw [split, List.filter_append, List.filter_cons_of_pos visible, List.length_append,
      List.length_cons] at one
    obtain ⟨front, back, marks, isFront, isBack, rfl, rfl, kind, mem⟩ :=
      exists_marks sound.marks split
    have rest : (modifiersOf back).filter isVisibility = [] := List.length_eq_zero_iff.1 (by omega)
    refine ⟨front, some v, back, marks, isFront, isBack, fun t mem => ?_, ?_, by simp⟩
    · rcases List.mem_append.1 mem with mem | mem
      · simpa using none t mem
      · simpa using List.filter_eq_nil_iff.1 rest t mem
    · rintro t ⟨rfl⟩
      exact ⟨kind, mem, visible⟩
  | none =>
    rw [List.find?_eq_none] at found
    cases all : modifiersOf d.marks with
    | nil =>
      refine ⟨d.marks, none, [], by simp, sound.marks, .nil, ?_, by simp, fun _ => ⟨all, by simp⟩⟩
      rw [all]
      simp [modifiersOf, outsideParens]
    | cons t ts =>
      obtain ⟨front, back, marks, isFront, isBack, none, rest, kind, mem⟩ :=
        @exists_marks d.marks [] ts t sound.marks all
      refine ⟨front, .none, t :: back, marks, isFront, .modifier kind mem isBack, ?_, by simp,
        fun _ => ⟨none, ?_⟩⟩
      · rw [none, modifiersOf_modifier kind mem, rest, ← all]
        simpa using found
      · simp [kind, mem]

section

variable {front back : List Token} {visible : Option Token}

theorem Turns.modifiersOf_eq (turns : d.Turns front visible back) :
    modifiersOf d.marks = modifiersOf front ++ (visible.toList ++ modifiersOf back) := by
  rw [turns.marks, modifiersOf_append turns.before]
  cases visible with
  | none => rfl
  | some v =>
    obtain ⟨kind, mem, -⟩ := turns.shows v rfl
    rw [Option.toList_some, List.singleton_append, modifiersOf_modifier kind mem]
    rfl

theorem Turns.visibilityToken (turns : d.Turns front visible back) :
    d.header.visibilityToken = visible := by
  have none {ts : List Token} (hidden : ∀ t ∈ ts, t.isVisibility = false) :
      ts.find? isVisibility = none := by
    rw [List.find?_eq_none]
    simpa using hidden
  have hidden := turns.hidden
  simp only [List.mem_append, or_imp, forall_and] at hidden
  rw [header, turns.modifiersOf_eq]
  simp only [List.find?_append, none hidden.1, none hidden.2]
  cases visible with
  | none => rfl
  | some v => simp [(turns.shows v rfl).2.2]

theorem Turns.modifiersOf_hidden (turns : d.Turns front visible back) : modifiersOf (front ++ back)
      = (modifiersOf d.marks).filter fun t => !t.isVisibility := by
  have quiet := turns.hidden
  simp only [List.mem_append, or_imp, forall_and] at quiet
  have all {ts : List Token} (hidden : ∀ t ∈ ts, t.isVisibility = false) :
      ts.filter (fun t => !t.isVisibility) = ts := by
    rw [List.filter_eq_self]
    simpa using hidden
  rw [modifiersOf_append turns.before, turns.modifiersOf_eq, List.filter_append,
    List.filter_append, all quiet.1, all quiet.2]
  cases visible with
  | none => rfl
  | some v => simp [(turns.shows v rfl).2.2]

theorem Turns.isSound_hidden (turns : d.Turns front visible back) (sound : d.IsSound) :
    (d.withMarks (front ++ back)).IsSound := by
  apply sound.withMarks (turns.before.append turns.behind)
  rw [turns.modifiersOf_hidden, List.filter_filter]
  simp

/-- A missing visibility goes right behind the front. -/
theorem Turns.anchor (turns : d.Turns front none back) :
    ∃ rest, back ++ (d.sign ++ d.keyword :: d.members) = d.header.anchor :: rest := by
  have all := turns.modifiersOf_eq
  obtain ⟨none, begins⟩ := turns.begins rfl
  rw [none] at all
  simp only [Option.toList_none, List.nil_append] at all
  cases back with
  | nil =>
    have anchor : d.header.anchor = d.sign.head?.getD d.keyword := by
      rw [header, all]
      rfl
    rw [anchor]
    cases d.sign with
    | nil => exact ⟨_, rfl⟩
    | cons t ts => exact ⟨_, rfl⟩
  | cons t ts =>
    obtain ⟨kind, mem⟩ := begins t rfl
    rw [modifiersOf_modifier kind mem] at all
    have quiet := turns.hidden t (by
      rw [none, modifiersOf_modifier kind mem]
      simp)
    refine ⟨ts ++ (d.sign ++ d.keyword :: d.members), ?_⟩
    rw [List.cons_append, header, all]
    simp [quiet]

end

end TypeSyntax

/-! ## Places do not count -/

namespace Token

@[simp] theorem isVisibility_bare (t : Token) : t.bare.isVisibility = t.isVisibility := rfl

variable {ts us : List Token}

theorem balances_bare {opens closes : Token → Bool} (sameOpens : ∀ t, opens (bare t) = opens t)
    (sameCloses : ∀ t, closes (bare t) = closes t) (depth : Nat) (ts : List Token) :
    balances opens closes depth (ts.map bare) = balances opens closes depth ts := by
  induction ts generalizing depth with
  | nil => rfl
  | cons t ts ih => simp only [List.map_cons, balances, sameOpens, sameCloses, ih]

theorem opensNone_bare (previous : Option Token) (ts : List Token) :
    opensNone (previous.map bare) (ts.map bare) = opensNone previous ts := by
  induction ts generalizing previous with
  | nil => rfl
  | cons t ts ih =>
    have ih := ih (some t)
    rw [Option.map_some] at ih
    rw [List.map_cons, opensNone, opensNone, opensType_bare, ih]

theorem isPath_bare (ts : List Token) : isPath (ts.map bare) = isPath ts := by
  fun_induction isPath ts with
  | case1 => rfl
  | case2 t => rfl
  | case3 t dot ts ih =>
    rw [List.map_cons, List.map_cons, isPath, ih]
    rfl

theorem isArguments_bare (ts : List Token) : IsArguments (ts.map bare) ↔ IsArguments ts := by
  constructor
  · rintro ⟨opening, inner, closing, whole, opens, closes, parens, braces, mark, none⟩
    obtain ⟨opening, rest, rfl, rfl, later⟩ := List.map_eq_cons_iff.1 whole
    obtain ⟨inner, back, rfl, rfl, last⟩ := List.map_eq_append_iff.1 later
    obtain ⟨closing, rfl, rfl⟩ := List.map_eq_singleton_iff.1 last
    rw [balances_bare opensParen_bare closesParen_bare] at parens
    rw [balances_bare opensBrace_bare closesBrace_bare] at braces
    refine ⟨opening, inner, closing, rfl, opens, closes, parens, braces, ?_, ?_⟩
    · exact fun t mem => mark t.bare (List.mem_map_of_mem mem)
    · rw [← opensNone_bare]
      exact none
  · rintro ⟨opening, inner, closing, rfl, opens, closes, parens, braces, mark, none⟩
    refine ⟨opening.bare, inner.map bare, closing.bare, by simp, opens, closes, ?_, ?_, ?_, ?_⟩
    · rwa [balances_bare opensParen_bare closesParen_bare]
    · rwa [balances_bare opensBrace_bare closesBrace_bare]
    · simpa using mark
    · rw [← opensNone_bare] at none
      exact none

theorem isMarks_bare (ms : List Token) : IsMarks (ms.map bare) ↔ IsMarks ms := by
  constructor
  · intro marks
    generalize whole : ms.map bare = xs at marks
    induction marks generalizing ms with
    | nil =>
      rw [List.map_eq_nil_iff.1 whole]
      exact .nil
    | modifier kind mem _ ih =>
      obtain ⟨t, ts, rfl, rfl, later⟩ := List.map_eq_cons_iff.1 whole
      exact .modifier kind mem (ih ts later)
    | annotated kind names isArguments _ ih =>
      obtain ⟨sign, ts, rfl, rfl, later⟩ := List.map_eq_cons_iff.1 whole
      obtain ⟨path, rest, rfl, rfl, behind⟩ := List.map_eq_append_iff.1 later
      obtain ⟨arguments, ts, rfl, rfl, last⟩ := List.map_eq_append_iff.1 behind
      rw [isPath_bare] at names
      rw [isArguments_bare, List.map_eq_nil_iff] at isArguments
      exact .annotated kind names isArguments (ih ts last)
  · intro marks
    induction marks with
    | nil => exact .nil
    | modifier kind mem _ ih => exact .modifier kind mem ih
    | annotated kind names isArguments _ ih =>
      rw [← isPath_bare] at names
      rw [← isArguments_bare, ← List.map_eq_nil_iff (f := bare)] at isArguments
      rw [List.map_cons, List.map_append, List.map_append]
      exact .annotated kind names isArguments ih

end Token

theorem Header.modifiersOf_bare (ts : List Token) :
    modifiersOf (ts.map Token.bare) = (modifiersOf ts).map Token.bare := by
  rw [modifiersOf, outsideParens_bare, List.filter_map]
  rfl

namespace TypeSyntax

open Header

variable {d : TypeSyntax}

def bare (d : TypeSyntax) : TypeSyntax where
  marks := d.marks.map Token.bare
  sign := d.sign.map Token.bare
  keyword := d.keyword.bare
  name := d.name.bare
  tail := d.tail.map Token.bare
  opening := d.opening.bare
  body := d.body.map Token.bare
  closing := d.closing.bare

theorem tokens_bare (d : TypeSyntax) : d.bare.tokens = d.tokens.map Token.bare := by
  simp [tokens, bare]

theorem exists_bare {item : Item} (same : item.map Token.bare = d.bare.tokens) :
    ∃ d' : TypeSyntax, item = d'.tokens ∧ d'.bare = d.bare := by
  rw [tokens] at same
  obtain ⟨marks, item, rfl, sameMarks, same⟩ := List.map_eq_append_iff.1 same
  obtain ⟨sign, item, rfl, sameSign, same⟩ := List.map_eq_append_iff.1 same
  obtain ⟨keyword, item, rfl, sameKeyword, same⟩ := List.map_eq_cons_iff.1 same
  obtain ⟨name, item, rfl, sameName, same⟩ := List.map_eq_cons_iff.1 same
  obtain ⟨tail, item, rfl, sameTail, same⟩ := List.map_eq_append_iff.1 same
  obtain ⟨opening, item, rfl, sameOpening, same⟩ := List.map_eq_cons_iff.1 same
  obtain ⟨body, item, rfl, sameBody, same⟩ := List.map_eq_append_iff.1 same
  obtain ⟨closing, rfl, sameClosing⟩ := List.map_eq_singleton_iff.1 same
  refine ⟨⟨marks, sign, keyword, name, tail, opening, body, closing⟩, rfl, ?_⟩
  rw [bare, sameMarks, sameSign, sameKeyword, sameName, sameTail, sameOpening, sameBody,
    sameClosing]

theorem isSound_bare (d : TypeSyntax) : d.bare.IsSound ↔ d.IsSound := by
  constructor
  · rintro ⟨marks, sign, keyword, name, tail, opening, body, closing, visibility⟩
    refine ⟨(isMarks_bare _).1 marks, ?_, keyword, name, ?_, opening, ?_, closing, ?_⟩
    · rcases sign with none | ⟨t, one, kind⟩
      · exact .inl (List.map_eq_nil_iff.1 none)
      · obtain ⟨s, sign, rfl⟩ := List.map_eq_singleton_iff.1 one
        exact .inr ⟨s, sign, kind⟩
    · exact fun t mem => tail t.bare (List.mem_map_of_mem mem)
    · rwa [bare, balances_bare opensBrace_bare closesBrace_bare] at body
    · rw [bare, modifiersOf_bare, List.filter_map, List.length_map] at visibility
      exact visibility
  · rintro ⟨marks, sign, keyword, name, tail, opening, body, closing, visibility⟩
    refine ⟨(isMarks_bare _).2 marks, ?_, keyword, name, ?_, opening, ?_, closing, ?_⟩
    · rcases sign with none | ⟨t, one, kind⟩
      · exact .inl (by rw [bare, none]; rfl)
      · exact .inr ⟨t.bare, by rw [bare, one]; rfl, kind⟩
    · simpa [bare] using tail
    · rwa [bare, balances_bare opensBrace_bare closesBrace_bare]
    · rw [bare, modifiersOf_bare, List.filter_map, List.length_map]
      exact visibility

theorem IsSound.header_bare (sound : d.IsSound) : d.bare.header = d.header.bare := by
  have found := ((isSound_bare d).2 sound).ofItem?
  rw [tokens_bare, ofItem?_bare, sound.ofItem?] at found
  exact (Option.some.inj found).symm

/-- Where the visibility of a declaration stands does not depend on the places of its tokens. -/
theorem Turns.of_bare {front back : List Token} {visible : Option Token} {d' : TypeSyntax}
    (turns : d.Turns front visible back) (same : d'.bare = d.bare) :
    ∃ front' visible' back', d'.Turns front' visible' back' ∧
      front'.map Token.bare = front.map Token.bare ∧
      visible'.map Token.bare = visible.map Token.bare ∧
      back'.map Token.bare = back.map Token.bare := by
  have marks : d'.marks.map Token.bare = d.marks.map Token.bare := congrArg TypeSyntax.marks same
  rw [turns.marks, List.map_append, List.map_append] at marks
  obtain ⟨front', rest, split, sameFront, later⟩ := List.map_eq_append_iff.1 marks
  obtain ⟨mid, back', rfl, sameMid, sameBack⟩ := List.map_eq_append_iff.1 later
  obtain ⟨visible', rfl, sameVisible⟩ : ∃ visible' : Option Token, mid = visible'.toList ∧
      visible'.map Token.bare = visible.map Token.bare := by
    cases visible with
    | none => exact ⟨none, List.map_eq_nil_iff.1 sameMid, rfl⟩
    | some v =>
      obtain ⟨v', rfl, sameV⟩ := List.map_eq_singleton_iff.1 sameMid
      exact ⟨some v', rfl, congrArg some sameV⟩
  have modifiers {xs ys : List Token} (same : xs.map Token.bare = ys.map Token.bare) :
      (modifiersOf xs).map Token.bare = (modifiersOf ys).map Token.bare := by
    rw [← modifiersOf_bare, same, modifiersOf_bare]
  have isMarks {xs ys : List Token} (same : xs.map Token.bare = ys.map Token.bare)
      (marks : IsMarks ys) : IsMarks xs := by
    rwa [← isMarks_bare, same, isMarks_bare]
  refine ⟨front', visible', back', ⟨split, isMarks sameFront turns.before,
    isMarks sameBack turns.behind, fun t mem => ?_, fun t is => ?_, fun none => ?_⟩, sameFront,
    sameVisible, sameBack⟩
  · have mem := List.mem_map_of_mem (f := Token.bare) mem
    rw [List.map_append, modifiers sameFront, modifiers sameBack, ← List.map_append] at mem
    obtain ⟨s, inside, bare⟩ := List.mem_map.1 mem
    rw [← isVisibility_bare, ← bare]
    exact turns.hidden s inside
  · rw [is, Option.map_some] at sameVisible
    obtain ⟨s, is, bare⟩ := Option.map_eq_some_iff.1 sameVisible.symm
    obtain ⟨kind, mem, visible⟩ := turns.shows s is
    rw [← bare_kind, ← bare_value, ← isVisibility_bare, ← bare]
    exact ⟨kind, mem, visible⟩
  · rw [none, Option.map_none] at sameVisible
    obtain ⟨nothing, begins⟩ := turns.begins (Option.map_eq_none_iff.1 sameVisible.symm)
    refine ⟨?_, fun t head => ?_⟩
    · have same := modifiers sameFront
      rwa [nothing, List.map_nil, List.map_eq_nil_iff] at same
    · have heads := congrArg List.head? sameBack
      rw [List.head?_map, List.head?_map, head] at heads
      obtain ⟨s, is, bare⟩ := Option.map_eq_some_iff.1 heads.symm
      rw [← bare_kind, ← bare_value, ← bare]
      exact begins s is

end TypeSyntax

end JavaUnits
