import JavaUnits.Proofs.Edits
import JavaUnits.Proofs.TypeHeader

/-!
Items whose visibility is set or taken out. Where an item ends and what its header says depends on
the tokens before the type keyword only as far as they are brackets, type keywords or dots, so that
a modifier more or less makes no difference but among the modifiers.
-/

namespace JavaUnits

open Token

/-! ## Tokens outside parentheses -/

namespace Header

/-- How many parentheses are open behind the tokens. -/
def parensAfter (parens : Nat) : List Token → Nat
  | [] => parens
  | t :: ts =>
    if t.opensParen then parensAfter (parens + 1) ts
    else if t.closesParen then parensAfter (parens - 1) ts
    else parensAfter parens ts

section

variable {xs as bs front back : List Token} {v : Token} {n : Nat}

theorem outsideParens_append (n : Nat) (xs ys : List Token) :
    outsideParens n (xs ++ ys) = outsideParens n xs ++ outsideParens (parensAfter n xs) ys := by
  induction xs generalizing n with
  | nil => rfl
  | cons x xs ih =>
    rw [List.cons_append, outsideParens, outsideParens, parensAfter]
    split
    · exact ih _
    split
    · exact ih _
    split
    · rw [ih, List.cons_append]
    · exact ih _

theorem parensAfter_append (n : Nat) (xs ys : List Token) :
    parensAfter n (xs ++ ys) = parensAfter (parensAfter n xs) ys := by
  induction xs generalizing n with
  | nil => rfl
  | cons x xs ih =>
    rw [List.cons_append, parensAfter, parensAfter]
    split
    · exact ih _
    split
    · exact ih _
    · exact ih _

theorem exists_outside (split : outsideParens n xs = as ++ v :: bs) :
    ∃ front back, xs = front ++ v :: back ∧ parensAfter n front = 0 ∧
      outsideParens n front = as ∧ outsideParens 0 back = bs := by
  induction xs generalizing n as with
  | nil => simp [outsideParens] at split
  | cons x xs ih =>
    rw [outsideParens] at split
    split at split
    · rename_i opens
      obtain ⟨front, back, rfl, parens, before, behind⟩ := ih split
      exact ⟨x :: front, back, rfl, by rwa [parensAfter, if_pos opens],
        by rwa [outsideParens, if_pos opens], behind⟩
    split at split
    · rename_i opens closes
      obtain ⟨front, back, rfl, parens, before, behind⟩ := ih split
      exact ⟨x :: front, back, rfl, by rwa [parensAfter, if_neg opens, if_pos closes],
        by rwa [outsideParens, if_neg opens, if_pos closes], behind⟩
    split at split
    · rename_i opens closes zero
      cases as with
      | nil =>
        obtain ⟨rfl, behind⟩ := List.cons.inj split
        exact ⟨[], xs, rfl, zero, rfl, by rw [← zero, behind]⟩
      | cons a as =>
        obtain ⟨rfl, later⟩ := List.cons.inj split
        obtain ⟨front, back, rfl, parens, before, behind⟩ := ih later
        exact ⟨x :: front, back, rfl, by rwa [parensAfter, if_neg opens, if_neg closes],
          by rw [outsideParens, if_neg opens, if_neg closes, if_pos zero, before], behind⟩
    · rename_i opens closes zero
      obtain ⟨front, back, rfl, parens, before, behind⟩ := ih split
      exact ⟨x :: front, back, rfl, by rwa [parensAfter, if_neg opens, if_neg closes],
        by rwa [outsideParens, if_neg opens, if_neg closes, if_neg zero], behind⟩

theorem modifiersOf_append_of_parens (closed : parensAfter 0 front = 0) (back : List Token) :
    modifiersOf (front ++ back) = modifiersOf front ++ modifiersOf back := by
  rw [modifiersOf, outsideParens_append, closed, List.filter_append]
  rfl

theorem exists_modifier (split : modifiersOf xs = as ++ v :: bs) :
    ∃ front back, xs = front ++ v :: back ∧ parensAfter 0 front = 0 ∧ modifiersOf front = as ∧
      modifiersOf back = bs ∧ v.isModifier = true := by
  obtain ⟨outside, rest, whole, before, later⟩ := List.filter_eq_append_iff.1 split
  obtain ⟨more, behind, rest', none, isModifier, kept⟩ := List.filter_eq_cons_iff.1 later
  subst rest'
  rw [← List.append_assoc] at whole
  obtain ⟨front, back, rfl, parens, frontOutside, backOutside⟩ := exists_outside whole
  refine ⟨front, back, rfl, parens, ?_, ?_, isModifier⟩
  · rw [modifiersOf, frontOutside, List.filter_append, before, List.filter_eq_nil_iff.2 none,
      List.append_nil]
  · rw [modifiersOf, backOutside, kept]

end

end Header

/-! ## The way to the type keyword -/

namespace Token

/-- Whether the last of the tokens is a dot; `dot` tells whether a dot stands before them. -/
def dotAfter (dot : Bool) : List Token → Bool
  | [] => dot
  | t :: ts => dotAfter (isDot (some t)) ts

structure IsMark (t : Token) : Prop where
  kind : t.kind = .modifier
  word : t.opensType none = false

theorem isSeparator_of_kind {t : Token} (other : t.kind ≠ .separator) (value : Text) :
    t.isSeparator value = false := by
  simp [isSeparator, other]

theorem IsMark.isSeparator {t : Token} (mark : t.IsMark) (value : Text) :
    t.isSeparator value = false :=
  isSeparator_of_kind (by rw [mark.kind]; decide) value

theorem opensType_eq (previous : Option Token) (t : Token) :
    t.opensType previous = (t.opensType none && !isDot previous) := by
  simp [opensType, isDot]

end Token

namespace Header

/-- The tokens before the type keyword, that keyword and what follows it, as `splitAtKeyword?` finds
them; of the tokens passed it counts whether the last is a dot. -/
def lead? (dot : Bool) (parens braces : Nat) : List Token → Option (List Token × Token × List Token)
  | [] => none
  | t :: ts =>
    let goOn (parens braces : Nat) := (lead? (isDot (some t)) parens braces ts).map fun found =>
      (t :: found.1, found.2)
    if t.opensParen then goOn (parens + 1) braces
    else if t.closesParen then goOn (parens - 1) braces
    else if t.opensBrace then if parens = 0 ∧ braces = 0 then none else goOn parens (braces + 1)
    else if t.closesBrace then goOn parens (braces - 1)
    else if parens = 0 ∧ braces = 0 ∧ (t.opensType none && !dot) then some ([], t, ts)
    else goOn parens braces

section

variable {dot : Bool} {parens braces : Nat} {xs ys zs front back : List Token} {t keyword : Token}

theorem splitAtKeyword?_eq_lead (passed : List Token) (parens braces : Nat) (ts : List Token) :
    splitAtKeyword? passed parens braces ts
      = (lead? (isDot passed.head?) parens braces ts).map fun found =>
        (passed.reverse ++ found.1, found.2) := by
  induction ts generalizing passed parens braces with
  | nil => rfl
  | cons t ts ih =>
    have goOn (parens braces : Nat) : splitAtKeyword? (t :: passed) parens braces ts
        = ((lead? (isDot (some t)) parens braces ts).map fun found => (t :: found.1, found.2)).map
          fun found => (passed.reverse ++ found.1, found.2) := by
      rw [ih, List.head?_cons, Option.map_map]
      congr 1
      funext found
      simp
    rw [splitAtKeyword?, lead?]
    simp only [goOn, opensType_eq passed.head? t]
    split
    · rfl
    split
    · rfl
    split
    · split <;> rfl
    split
    · rfl
    split
    · simp
    · rfl

theorem lead?_mark (mark : t.IsMark) (ts : List Token) :
    lead? dot parens braces (t :: ts) = (lead? false parens braces ts).map fun found =>
      (t :: found.1, found.2) := by
  have noDot : isDot (some t) = false := mark.isSeparator _
  rw [lead?]
  simp [opensParen, closesParen, opensBrace, closesBrace, mark.isSeparator, mark.word, noDot]

/-- A dot makes no difference before anything but a type keyword. -/
theorem lead?_dot (other : t.opensType none = false ∨ dot = false) (ts : List Token) :
    lead? false parens braces (t :: ts) = lead? dot parens braces (t :: ts) := by
  rcases other with other | rfl
  · rw [lead?, lead?, other, Bool.false_and, Bool.false_and]
  · rfl

/-- The way to the type keyword goes through the front whatever follows. -/
theorem lead?_append (found : lead? dot parens braces (xs ++ ys) = some (xs ++ zs, keyword, back)) :
    ∃ parens' braces', ∀ ys', lead? dot parens braces (xs ++ ys')
      = (lead? (dotAfter dot xs) parens' braces' ys').map fun found =>
        (xs ++ found.1, found.2) := by
  induction xs generalizing dot parens braces with
  | nil => exact ⟨parens, braces, fun ys' => by simp [dotAfter]⟩
  | cons x xs ih =>
    have goOn {parens braces : Nat}
        (found : (lead? (isDot (some x)) parens braces (xs ++ ys)).map
          (fun found => (x :: found.1, found.2)) = some (x :: xs ++ zs, keyword, back)) :
        ∃ parens' braces', ∀ ys', (lead? (isDot (some x)) parens braces (xs ++ ys')).map
            (fun found => (x :: found.1, found.2))
          = (lead? (dotAfter dot (x :: xs)) parens' braces' ys').map fun found =>
            (x :: xs ++ found.1, found.2) := by
      obtain ⟨⟨zs', rest⟩, inner, same⟩ := Option.map_eq_some_iff.1 found
      simp only [List.cons_append, Prod.mk.injEq, List.cons.injEq, true_and] at same
      obtain ⟨rfl, rfl⟩ := same
      obtain ⟨parens', braces', all⟩ := ih inner
      refine ⟨parens', braces', fun ys' => ?_⟩
      rw [all, Option.map_map]
      rfl
    rw [List.cons_append, lead?] at found
    simp only [List.cons_append, lead?]
    split at found
    · rename_i opens
      simp only [if_pos opens]
      exact goOn found
    rename_i opens
    simp only [if_neg opens]
    split at found
    · rename_i closes
      simp only [if_pos closes]
      exact goOn found
    rename_i closes
    simp only [if_neg closes]
    split at found
    · rename_i brace
      split at found
      · cases found
      · rename_i inside
        simp only [if_pos brace, if_neg inside]
        exact goOn found
    rename_i brace
    simp only [if_neg brace]
    split at found
    · rename_i closing
      simp only [if_pos closing]
      exact goOn found
    rename_i closing
    simp only [if_neg closing]
    split at found
    · simp at found
    · rename_i other
      simp only [if_neg other]
      exact goOn found

end

end Header

/-! ## The end of an item -/

namespace Item

/-- Whether an item ends with the last of the tokens and not before, as `endsWithLast` finds it. -/
def closes (dot : Bool) (depth : Nat) (isType : Bool) : List Token → Bool
  | [] => false
  | t :: ts =>
    let isType := isType || (depth == 0 && (t.opensType none && !dot))
    let goOn (depth : Nat) := closes (isDot (some t)) depth isType ts
    if t.opensBrace then goOn (depth + 1)
    else if t.closesBrace then
      if depth - 1 == 0 && isType then ts.isEmpty else goOn (depth - 1)
    else if t.isSemicolon && depth == 0 then ts.isEmpty else goOn depth

section

variable {dot isType : Bool} {depth : Nat} {xs ys : List Token} {t y : Token}

theorem endsWithLast_eq_closes (p : Progress) (ts : List Token) :
    endsWithLast p ts = closes (isDot p.tokens.head?) p.depth p.isType ts := by
  induction ts generalizing p with
  | nil => rfl
  | cons t ts ih =>
    rw [endsWithLast, closes, Progress.take, opensType_eq p.tokens.head? t]
    generalize (p.isType || (p.depth == 0 && (t.opensType none && !isDot p.tokens.head?))) = isType
    by_cases opens : t.opensBrace = true
    · simp only [if_pos opens]
      exact ih _
    by_cases closing : t.closesBrace = true
    · simp only [if_neg opens, if_pos closing]
      cases ends : (p.depth - 1 == 0 && isType) with
      | true => rfl
      | false => exact ih _
    · simp only [if_neg opens, if_neg closing]
      cases ends : (t.isSemicolon && p.depth == 0) with
      | true => rfl
      | false => exact ih _

theorem isClosed_iff_closes (item : Item) : item.IsClosed ↔ closes false 0 false item = true := by
  rw [IsClosed, endsWithLast_eq_closes]
  rfl

theorem closes_mark (mark : t.IsMark) (ts : List Token) :
    closes dot depth isType (t :: ts) = closes false depth isType ts := by
  have noDot : isDot (some t) = false := mark.isSeparator _
  rw [closes]
  simp [opensBrace, closesBrace, isSemicolon, mark.isSeparator, mark.word, noDot]

theorem closes_dot (other : t.opensType none = false ∨ dot = false) (ts : List Token) :
    closes false depth isType (t :: ts) = closes dot depth isType (t :: ts) := by
  rcases other with other | rfl
  · rw [closes, closes, other, Bool.false_and, Bool.false_and]
  · rfl

theorem closes_append (closed : closes dot depth isType (xs ++ y :: ys) = true) :
    ∃ depth' isType', ∀ ys', closes dot depth isType (xs ++ ys')
      = closes (dotAfter dot xs) depth' isType' ys' := by
  induction xs generalizing dot depth isType with
  | nil => exact ⟨depth, isType, fun _ => rfl⟩
  | cons x xs ih =>
    have more : (xs ++ y :: ys).isEmpty = false := by simp
    rw [List.cons_append, closes] at closed
    simp only [List.cons_append, closes]
    split at closed
    · rename_i opens
      simp only [if_pos opens]
      exact ih closed
    rename_i opens
    simp only [if_neg opens]
    split at closed
    · rename_i closing
      simp only [if_pos closing]
      split at closed
      · rw [more] at closed
        cases closed
      · rename_i other
        simp only [if_neg other]
        exact ih closed
    rename_i closing
    simp only [if_neg closing]
    split at closed
    · rw [more] at closed
      cases closed
    · rename_i other
      simp only [if_neg other]
      exact ih closed

end

end Item

/-! ## Headers taken apart -/

theorem Token.isMark_of_isVisibility {t : Token} (isModifier : t.isModifier = true)
    (is : t.isVisibility = true) : t.IsMark where
  kind := of_decide_eq_true isModifier
  word := by
    obtain ⟨access, found⟩ := Option.isSome_iff_exists.1 is
    obtain ⟨word, other⟩ := Header.ofModifier?_eq_some found
    have apart : typeKeywords.contains t.value = false := by
      rw [← word]
      revert other
      cases access <;> decide
    rw [opensType, apart, Bool.and_false, Bool.false_and]

theorem Header.isMark_publicToken (position : Position) : (publicToken position).IsMark where
  kind := rfl
  word := rfl

namespace Header

variable {h : Header} {item : Item} {front mid before rest : List Token} {keyword name : Token}
  {visible : Option Token}

/-- The token of the kind that stands first: the sign of an annotation type, or the keyword. -/
def kindToken (before : List Token) (keyword : Token) : Token :=
  match before.getLast? with
  | some t => if t.kind = .atSign then t else keyword
  | none => keyword

def ofParts (item before : List Token) (keyword name : Token) (rest : List Token) : Header where
  name := name.value
  kind := .ofWord keyword.value
  modifiers := (modifiersOf before).map Token.value
  declaresMain := hasMain 0 [] (keyword :: name :: rest)
  first := item.headD keyword
  keyword := keyword
  visibilityToken := (modifiersOf before).find? isVisibility
  anchor := ((modifiersOf before).find? fun t => !t.isVisibility).getD (kindToken before keyword)

theorem splitAtKeyword?_eq (item : Item) : splitAtKeyword? [] 0 0 item = lead? false 0 0 item := by
  rw [splitAtKeyword?_eq_lead, List.head?_nil, show isDot none = false from rfl]
  cases lead? false 0 0 item <;> rfl

theorem ofItem?_eq_some : ofItem? item = some h ↔ ∃ before keyword name rest,
    lead? false 0 0 item = some (before, keyword, name :: rest) ∧ name.isIdentifier = true ∧
      h = ofParts item before keyword name rest := by
  cases item with
  | nil => simp [ofItem?, lead?]
  | cons first item =>
    simp only [ofItem?, splitAtKeyword?_eq]
    rcases lead? false 0 0 (first :: item) with _ | ⟨before, keyword, _ | ⟨name, rest⟩⟩
    · simp
    · simp
    · simp only [Option.some.injEq, Prod.mk.injEq, List.cons.injEq]
      constructor
      · intro found
        split at found
        · rename_i identifier
          exact ⟨before, keyword, name, rest, ⟨rfl, rfl, rfl, rfl⟩, identifier,
            (Option.some.inj found).symm⟩
        · cases found
      · rintro ⟨_, _, _, _, ⟨rfl, rfl, rfl, rfl⟩, identifier, rfl⟩
        rw [if_pos identifier]
        rfl

theorem lead?_eq_some {dot : Bool} {parens braces : Nat} {ts xs : List Token}
    (found : lead? dot parens braces ts = some (xs, keyword, rest)) :
    ts = xs ++ keyword :: rest ∧ parensAfter parens xs = 0 ∧ dotAfter dot xs = false := by
  induction ts generalizing dot parens braces xs with
  | nil => cases found
  | cons t ts ih =>
    have goOn {parens' braces' : Nat} (after : parensAfter parens [t] = parens')
        (found : (lead? (isDot (some t)) parens' braces' ts).map
          (fun found => (t :: found.1, found.2)) = some (xs, keyword, rest)) :
        t :: ts = xs ++ keyword :: rest ∧ parensAfter parens xs = 0 ∧ dotAfter dot xs = false := by
      obtain ⟨⟨xs', found'⟩, inner, same⟩ := Option.map_eq_some_iff.1 found
      simp only [Prod.mk.injEq] at same
      obtain ⟨rfl, rfl⟩ := same
      obtain ⟨rfl, zero, noDot⟩ := ih inner
      refine ⟨rfl, ?_, noDot⟩
      rw [← after] at zero
      simp only [parensAfter] at zero ⊢
      split
      · rename_i is
        rwa [if_pos is] at zero
      · rename_i is
        rw [if_neg is] at zero
        split
        · rename_i closes
          rwa [if_pos closes] at zero
        · rename_i closes
          rwa [if_neg closes] at zero
    rw [lead?] at found
    split at found
    · rename_i opens
      exact goOn (by simp [parensAfter, opens]) found
    rename_i opens
    split at found
    · rename_i closes
      exact goOn (by simp [parensAfter, opens, closes]) found
    rename_i closes
    have same : parensAfter parens [t] = parens := by simp [parensAfter, opens, closes]
    split at found
    · split at found
      · cases found
      · exact goOn same found
    split at found
    · exact goOn same found
    split at found
    · rename_i here
      simp only [Option.some.injEq, Prod.mk.injEq] at found
      obtain ⟨rfl, rfl, rfl⟩ := found
      simp only [Bool.and_eq_true, Bool.not_eq_true'] at here
      exact ⟨rfl, here.1, here.2.2.2⟩
    · exact goOn same found

/-- An item taken apart at its visibility, or at the place where a missing one goes: what stands
before that, and what is left up to the type keyword. -/
structure Apart (h : Header) (item front : Item) (visible : Option Token) (mid : List Token)
    (name : Token) (rest : List Token) : Prop where
  lead : lead? false 0 0 item = some (front ++ (visible.toList ++ mid), h.keyword, name :: rest)
  isName : name.isIdentifier = true
  header : h = ofParts item (front ++ (visible.toList ++ mid)) h.keyword name rest
  parens : parensAfter 0 front = 0
  hidden : ∀ t ∈ modifiersOf front, t.isVisibility = false
  shown : h.visibilityToken = visible
  shows : ∀ v ∈ visible, v.IsMark ∧ v.isVisibility = true
  anchor : visible = none → (mid ++ h.keyword :: name :: rest).head? = some h.anchor ∧
    (h.anchor.opensType none = false ∨ dotAfter false front = false)

theorem exists_apart (found : ofItem? item = some h)
    (words : ∀ t ∈ item, t.isModifier = true → t.value ∈ Token.modifiers) :
    ∃ front visible mid name rest, h.Apart item front visible mid name rest := by
  obtain ⟨before, keyword, name, rest, lead, isName, rfl⟩ := ofItem?_eq_some.1 found
  obtain ⟨whole, parens, noDot⟩ := lead?_eq_some lead
  cases shown : (modifiersOf before).find? isVisibility with
  | some v =>
    obtain ⟨is, as, bs, split, hidden⟩ := List.find?_eq_some_iff_append.1 shown
    obtain ⟨front, mid, rfl, zero, before', -, isModifier⟩ := exists_modifier split
    refine ⟨front, some v, mid, name, rest, lead, isName, rfl, zero, ?_, shown, ?_, by simp⟩
    · rw [before']
      exact fun t mem => by simpa using hidden t mem
    · rintro v' ⟨rfl⟩
      exact ⟨isMark_of_isVisibility isModifier is, is⟩
  | none =>
    have hidden : ∀ t ∈ modifiersOf before, t.isVisibility = false := by
      simpa using shown
    cases other : (modifiersOf before).find? fun t => !t.isVisibility with
    | some a =>
      obtain ⟨is, as, bs, split, all⟩ := List.find?_eq_some_iff_append.1 other
      obtain ⟨front, mid, rfl, zero, before', -, isModifier⟩ := exists_modifier split
      have none : as = [] := by
        apply List.eq_nil_iff_forall_not_mem.2
        intro t mem
        have visible := all t mem
        rw [hidden t (by rw [split]; exact List.mem_append_left _ mem)] at visible
        cases visible
      refine ⟨front, .none, a :: mid, name, rest, lead, isName, rfl, zero, ?_, shown, by simp,
        fun _ => ?_⟩
      · rw [before', none]
        simp
      · have anchor : (ofParts item (front ++ a :: mid) keyword name rest).anchor = a := by
          simp [ofParts, other]
        rw [anchor]
        refine ⟨rfl, .inl ?_⟩
        have apart := isModifier_apart (of_decide_eq_true isModifier)
          (words a (by simp [whole]) isModifier)
        exact apart.2.2.2.2.2 _
    | none =>
      have noModifiers : modifiersOf before = [] := by
        apply List.eq_nil_iff_forall_not_mem.2
        intro t mem
        have visible := List.find?_eq_none.1 other t mem
        rw [hidden t mem] at visible
        exact visible rfl
      have anchor : (ofParts item before keyword name rest).anchor = kindToken before keyword := by
        simp [ofParts, other]
      have here (noSign : kindToken before keyword = keyword) :
          ∃ front visible mid name' rest',
            (ofParts item before keyword name rest).Apart item front visible mid name' rest' := by
        refine ⟨before, .none, [], name, rest, ?_, isName, ?_, parens, ?_, shown, by simp,
          fun _ => ?_⟩
        · rw [Option.toList_none, List.nil_append, List.append_nil]
          exact lead
        · simp [ofParts]
        · simp [noModifiers]
        · rw [anchor, noSign]
          exact ⟨rfl, .inr noDot⟩
      rcases List.eq_nil_or_concat before with rfl | ⟨init, sign, rfl⟩
      · exact here rfl
      by_cases isSign : sign.kind = .atSign
      · rw [List.concat_eq_append] at *
        have isAnchor : kindToken (init ++ [sign]) keyword = sign := by
          rw [kindToken, List.getLast?_concat]
          exact if_pos isSign
        have quiet := atSign_apart isSign
        have zero : parensAfter 0 init = 0 := by
          rw [parensAfter_append, parensAfter, quiet.2.2.1, quiet.2.2.2.1] at parens
          exact parens
        rw [modifiersOf_append_of_parens zero, List.append_eq_nil_iff] at noModifiers
        refine ⟨init, .none, [sign], name, rest, lead, isName, rfl, zero, ?_, shown, by simp,
          fun _ => ?_⟩
        · simp [noModifiers.1]
        · rw [anchor, isAnchor]
          exact ⟨rfl, .inl (quiet.2.2.2.2.2 _)⟩
      · apply here
        rw [kindToken, List.concat_eq_append, List.getLast?_concat]
        exact if_neg isSign

namespace Apart

theorem item_eq (apart : h.Apart item front visible mid name rest) :
    item = front ++ (visible.toList ++ (mid ++ h.keyword :: name :: rest)) := by
  obtain ⟨whole, -⟩ := lead?_eq_some apart.lead
  rw [whole]
  simp

theorem lead_turned (apart : h.Apart item front visible mid name rest) (new : Option Token)
    (marks : ∀ t ∈ new, t.IsMark) (noDot : new = none → dotAfter false front = false) :
    lead? false 0 0 (front ++ (new.toList ++ (mid ++ h.keyword :: name :: rest)))
      = some (front ++ (new.toList ++ mid), h.keyword, name :: rest) := by
  have lead := apart.lead
  rw [apart.item_eq] at lead
  obtain ⟨parens, braces, all⟩ := lead?_append lead
  -- What is found behind the visibility does not depend on it.
  have later : lead? false parens braces (mid ++ h.keyword :: name :: rest)
      = some (mid, h.keyword, name :: rest) := by
    rw [all] at lead
    obtain ⟨⟨mid', found⟩, inner, same⟩ := Option.map_eq_some_iff.1 lead
    simp only [Prod.mk.injEq, List.append_cancel_left_eq] at same
    obtain ⟨rfl, rfl⟩ := same
    cases shown : visible with
    | some v =>
      rw [shown, Option.toList_some, List.singleton_append, List.singleton_append,
        lead?_mark (apart.shows v shown).1] at inner
      obtain ⟨⟨mid', found⟩, inner, same⟩ := Option.map_eq_some_iff.1 inner
      simp only [Prod.mk.injEq, List.cons.injEq, true_and] at same
      rw [inner, same.1, same.2]
    | none =>
      rw [shown, Option.toList_none, List.nil_append, List.nil_append] at inner
      obtain ⟨head, other⟩ := apart.anchor shown
      obtain ⟨later, split⟩ := List.head?_eq_some_iff.1 head
      rw [← inner, split]
      exact lead?_dot other later
  rw [all]
  cases new with
  | none =>
    rw [Option.toList_none, List.nil_append, List.nil_append, noDot rfl, later]
    rfl
  | some t =>
    rw [Option.toList_some, List.singleton_append, List.singleton_append,
      lead?_mark (marks t rfl), later]
    rfl

theorem isClosed_turned (apart : h.Apart item front visible mid name rest) (new : Option Token)
    (marks : ∀ t ∈ new, t.IsMark) (noDot : new = none → dotAfter false front = false)
    (closed : item.IsClosed) :
    Item.IsClosed (front ++ (new.toList ++ (mid ++ h.keyword :: name :: rest))) := by
  rw [Item.isClosed_iff_closes] at closed ⊢
  rw [apart.item_eq] at closed
  obtain ⟨y, ys, more⟩ := List.exists_cons_of_ne_nil
    (by simp : visible.toList ++ (mid ++ h.keyword :: name :: rest) ≠ [])
  have all := closed
  rw [more] at all
  obtain ⟨depth, isType, all⟩ := Item.closes_append all
  have later : Item.closes false depth isType (mid ++ h.keyword :: name :: rest) = true := by
    rw [all] at closed
    cases shown : visible with
    | some v =>
      rwa [shown, Option.toList_some, List.singleton_append,
        Item.closes_mark (apart.shows v shown).1] at closed
    | none =>
      rw [shown, Option.toList_none, List.nil_append] at closed
      obtain ⟨head, other⟩ := apart.anchor shown
      obtain ⟨later, split⟩ := List.head?_eq_some_iff.1 head
      rw [← closed, split]
      exact Item.closes_dot other later
  rw [all]
  cases new with
  | none => rw [Option.toList_none, List.nil_append, noDot rfl, later]
  | some t =>
    rw [Option.toList_some, List.singleton_append, Item.closes_mark (marks t rfl), later]

theorem ofItem?_turned (apart : h.Apart item front visible mid name rest) (new : Option Token)
    (marks : ∀ t ∈ new, t.IsMark) (noDot : new = none → dotAfter false front = false) :
    ofItem? (front ++ (new.toList ++ (mid ++ h.keyword :: name :: rest)))
      = some (ofParts (front ++ (new.toList ++ (mid ++ h.keyword :: name :: rest)))
        (front ++ (new.toList ++ mid)) h.keyword name rest) :=
  ofItem?_eq_some.2 ⟨_, _, _, _, apart.lead_turned new marks noDot, apart.isName, rfl⟩

theorem modifiersOf_turned (apart : h.Apart item front visible mid name rest) (new : Option Token)
    (marks : ∀ t ∈ new, t.IsMark) : modifiersOf (front ++ (new.toList ++ mid))
      = modifiersOf front ++ (new.toList ++ modifiersOf mid) := by
  rw [modifiersOf_append_of_parens apart.parens]
  cases new with
  | none => rfl
  | some t =>
    have mark := marks t rfl
    have alone : modifiersOf [t] = [t] := by
      simp [modifiersOf, outsideParens, opensParen, closesParen, mark.isSeparator, Token.isModifier,
        mark.kind]
    have closed : parensAfter 0 [t] = 0 := by
      simp [parensAfter, opensParen, closesParen, mark.isSeparator]
    rw [Option.toList_some, modifiersOf_append_of_parens closed, alone]

theorem publish_eq (apart : h.Apart item front visible mid name rest) (nodup : item.Nodup) :
    ∃ position, h.publish item
      = front ++ publicToken position :: (mid ++ h.keyword :: name :: rest) := by
  have whole := apart.item_eq
  rw [whole] at nodup
  have other {t : Token} (mem : t ∈ visible.toList ++ (mid ++ h.keyword :: name :: rest)) :
      t ∉ front := fun inside => (List.nodup_append.1 nodup).2.2 t inside t mem rfl
  cases shown : visible with
  | some v =>
    subst shown
    refine ⟨v.position, ?_⟩
    rw [whole]
    exact publish_of_some apart.shown (other (by simp)) _
  | none =>
    subst shown
    obtain ⟨head, -⟩ := apart.anchor rfl
    obtain ⟨later, split⟩ := List.head?_eq_some_iff.1 head
    refine ⟨h.anchor.position, ?_⟩
    rw [whole, Option.toList_none, List.nil_append, split]
    exact publish_of_none apart.shown (other (by simp [split])) later

theorem conceal_eq (apart : h.Apart item front visible mid name rest) (nodup : item.Nodup) :
    h.conceal item = front ++ (mid ++ h.keyword :: name :: rest) := by
  have whole := apart.item_eq
  rw [whole] at nodup
  cases shown : visible with
  | some v =>
    subst shown
    rw [whole]
    refine conceal_of_some apart.shown (fun inside => ?_) _
    exact (List.nodup_append.1 nodup).2.2 v inside v (by simp) rfl
  | none =>
    subst shown
    rw [conceal_of_none apart.shown, whole]
    rfl

end Apart

/-! ## Headers with another visibility -/

/-- The token before the first modifier outside parentheses that sets a visibility. -/
def beforeVisibility? (parens : Nat) (previous : Option Token) : List Token → Option Token
  | [] => none
  | t :: ts =>
    if t.opensParen then beforeVisibility? (parens + 1) (some t) ts
    else if t.closesParen then beforeVisibility? (parens - 1) (some t) ts
    else if parens = 0 ∧ t.isModifier ∧ t.isVisibility then previous
    else beforeVisibility? parens (some t) ts

theorem beforeVisibility?_append {n : Nat} {v : Token} {previous : Option Token}
    (closed : parensAfter n front = 0)
    (hidden : ∀ t ∈ (outsideParens n front).filter isModifier, t.isVisibility = false)
    (mark : v.IsMark) (shows : v.isVisibility = true) (back : List Token) :
    beforeVisibility? n previous (front ++ v :: back) = front.getLast?.or previous := by
  induction front generalizing n previous with
  | nil =>
    rw [parensAfter] at closed
    simp [beforeVisibility?, opensParen, closesParen, mark.isSeparator, closed, Token.isModifier,
      mark.kind, shows]
  | cons t front ih =>
    have last : (t :: front).getLast?.or previous = front.getLast?.or (some t) := by
      rw [List.getLast?_cons]
      cases front.getLast? <;> rfl
    rw [last, List.cons_append, beforeVisibility?]
    rw [parensAfter] at closed
    rw [outsideParens] at hidden
    split
    · rename_i opens
      rw [if_pos opens] at closed hidden
      exact ih closed hidden
    rename_i opens
    rw [if_neg opens] at closed hidden
    split
    · rename_i closes
      rw [if_pos closes] at closed hidden
      exact ih closed hidden
    rename_i closes
    rw [if_neg closes] at closed hidden
    split
    · rename_i here
      rw [if_pos here.1] at hidden
      have none := hidden t (List.mem_filter.2 ⟨List.mem_cons_self, here.2.1⟩)
      rw [here.2.2] at none
      cases none
    · apply ih closed
      intro t' mem
      apply hidden t'
      split
      · rw [List.mem_filter] at mem ⊢
        exact ⟨List.mem_cons_of_mem _ mem.1, mem.2⟩
      · exact mem

theorem beforeVisibility?_bare (parens : Nat) (previous : Option Token) (ts : List Token) :
    beforeVisibility? parens (previous.map Token.bare) (ts.map Token.bare)
      = (beforeVisibility? parens previous ts).map Token.bare := by
  induction ts generalizing parens previous with
  | nil => rfl
  | cons t ts ih =>
    have ih (parens : Nat) := ih parens (some t)
    rw [Option.map_some] at ih
    simp only [List.map_cons, beforeVisibility?, opensParen_bare, closesParen_bare,
      isModifier_bare, isVisibility_bare, ih]
    split
    · rfl
    split
    · rfl
    split <;> rfl

end Header

/-- What holds of the tokens of an item that is scanned: none stands twice, and modifiers are words
of the language. -/
structure Item.IsRead (item : Item) : Prop where
  nodup : item.Nodup
  words : ∀ t ∈ item, t.isModifier = true → t.value ∈ Token.modifiers

/-- Whether what stands behind a token may move up to it when a word between them goes: it joins no
word and opens no type. -/
def Token.leavesOff (t : Token) : Bool :=
  t.kind.isWord && !t.opensType none || t.kind = .separator && t.value != Text.ofString "."

theorem Token.isDot_of_leavesOff {t : Token} (leaves : t.leavesOff = true) :
    isDot (some t) = false := by
  simp only [leavesOff, Bool.or_eq_true, Bool.and_eq_true, bne_iff_ne, ne_eq,
    decide_eq_true_eq] at leaves
  rcases leaves with ⟨word, -⟩ | ⟨-, other⟩
  · cases kind : t.kind <;> simp_all [isDot, isSeparator, Kind.isWord]
  · simp [isDot, isSeparator, other]

theorem Token.dotAfter_eq_false {dot : Bool} {ts : List Token} (start : ts = [] → dot = false)
    (last : ∀ t ∈ ts.getLast?, isDot (some t) = false) : dotAfter dot ts = false := by
  induction ts generalizing dot with
  | nil => exact start rfl
  | cons t ts ih =>
    rw [dotAfter]
    apply ih
    · rintro rfl
      exact last t rfl
    · intro t' mem
      apply last t'
      rw [Option.mem_def] at mem ⊢
      rw [List.getLast?_cons, mem]
      rfl

/-- Whether `public` in the header of the item, if any, may be taken out. -/
def Item.Detaches (item : Item) : Prop :=
  ∀ h ∈ Header.ofItem? item, h.visibility = .publicAccess →
    ∀ t ∈ Header.beforeVisibility? 0 none item, t.leavesOff = true

instance (item : Item) : Decidable item.Detaches :=
  inferInstanceAs (Decidable (∀ h ∈ Header.ofItem? item, _ → _))

theorem Header.visibility_bare (h : Header) : h.bare.visibility = h.visibility := by
  rw [visibility, visibility, bare]
  cases h.visibilityToken <;> rfl

theorem Item.detaches_bare (item : Item) : Detaches (item.map bare) ↔ item.Detaches := by
  have before := Header.beforeVisibility?_bare 0 none item
  rw [Option.map_none] at before
  rw [Detaches, Detaches, Header.ofItem?_bare, before]
  constructor
  · intro all h found isPublic t mem
    refine all h.bare (Option.mem_map_of_mem _ found) ?_ t.bare (Option.mem_map_of_mem _ mem)
    rw [h.visibility_bare, isPublic]
  · intro all h found isPublic t mem
    obtain ⟨h', found', rfl⟩ := Option.map_eq_some_iff.1 (Option.mem_def.1 found)
    obtain ⟨t', mem', rfl⟩ := Option.map_eq_some_iff.1 (Option.mem_def.1 mem)
    exact all h' (Option.mem_def.2 found') (h'.visibility_bare ▸ isPublic) t'
      (Option.mem_def.2 mem')

namespace Header

variable {h : Header} {item : Item} {front mid rest : List Token} {name : Token}
  {visible : Option Token}

theorem Apart.leavesOff (apart : h.Apart item front visible mid name rest)
    (detaches : item.Detaches) (isPublic : h.visibility = .publicAccess) :
    ∀ t ∈ front.getLast?, t.leavesOff = true := by
  have found : ofItem? item = some h := by
    have turned := ofItem?_eq_some.2 ⟨_, _, _, _, apart.lead, apart.isName, rfl⟩
    rwa [← apart.header] at turned
  cases shown : visible with
  | none =>
    have none := apart.shown
    rw [visibility, none, shown] at isPublic
    cases isPublic
  | some v =>
    intro t last
    refine detaches h found isPublic t ?_
    obtain ⟨mark, shows⟩ := apart.shows v shown
    rw [apart.item_eq, shown, Option.toList_some, List.singleton_append,
      beforeVisibility?_append apart.parens apart.hidden mark shows, Option.mem_def.1 last]
    rfl

/-- A declaration made public declares the same type, and is complete if it was. -/
theorem exists_publish (found : ofItem? item = some h) (read : item.IsRead) :
    ∃ h', ofItem? (h.publish item) = some h' ∧ h'.name = h.name ∧ h'.kind = h.kind ∧
      h'.declaresMain = h.declaresMain ∧ h'.visibility = .publicAccess ∧
      (item.IsClosed → Item.IsClosed (h.publish item)) := by
  obtain ⟨front, visible, mid, name, rest, apart⟩ := exists_apart found read.words
  obtain ⟨position, same⟩ := apart.publish_eq read.nodup
  have marks : ∀ t ∈ some (publicToken position), t.IsMark := by
    rintro _ ⟨rfl⟩
    exact isMark_publicToken position
  have turned := apart.ofItem?_turned _ marks (by simp)
  rw [Option.toList_some, List.singleton_append, ← same] at turned
  refine ⟨_, turned, ?_, ?_, ?_, ?_, fun closed => ?_⟩
  · conv => rhs; rw [apart.header]
    rfl
  · conv => rhs; rw [apart.header]
    rfl
  · conv => rhs; rw [apart.header]
    rfl
  · have modifiers := apart.modifiersOf_turned _ marks
    rw [Option.toList_some] at modifiers
    have first : (modifiersOf (front ++ ([publicToken position] ++ mid))).find? isVisibility
        = some (publicToken position) := by
      rw [modifiers, List.find?_append, List.find?_eq_none.2 fun t mem => by
        simp [apart.hidden t mem]]
      rfl
    rw [visibility, ofParts, first]
    rfl
  · rw [same]
    exact apart.isClosed_turned _ marks (by simp) closed

/-- A declaration that is no longer public declares the same type, and is complete if it was. -/
theorem exists_demote (found : ofItem? item = some h) (read : item.IsRead)
    (detaches : item.Detaches) :
    ∃ h', ofItem? (h.demote item) = some h' ∧ h'.name = h.name ∧ h'.kind = h.kind ∧
      h'.declaresMain = h.declaresMain ∧
      (item.IsClosed → Item.IsClosed (h.demote item)) := by
  rw [demote]
  split
  case isFalse => exact ⟨h, found, rfl, rfl, rfl, id⟩
  rename_i isPublic
  obtain ⟨front, visible, mid, name, rest, apart⟩ := exists_apart found read.words
  have noDot : dotAfter false front = false := dotAfter_eq_false (fun _ => rfl) fun t last =>
    isDot_of_leavesOff (apart.leavesOff detaches isPublic t last)
  have turned := apart.ofItem?_turned none (by simp) fun _ => noDot
  rw [Option.toList_none, List.nil_append, ← apart.conceal_eq read.nodup] at turned
  refine ⟨_, turned, ?_, ?_, ?_, fun closed => ?_⟩
  · conv => rhs; rw [apart.header]
    rfl
  · conv => rhs; rw [apart.header]
    rfl
  · conv => rhs; rw [apart.header]
    rfl
  · rw [apart.conceal_eq read.nodup]
    exact apart.isClosed_turned none (by simp) (fun _ => noDot) closed

end Header

end JavaUnits
