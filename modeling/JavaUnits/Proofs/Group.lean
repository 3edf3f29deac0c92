import JavaUnits.Header
import JavaUnits.Import
import JavaUnits.Proofs.Place
import JavaUnits.Unit

/-!
Items and what is read from them. Grouping cuts a sequence of tokens where its items end, and
neither it nor the reading of headers and imports looks at positions. Of literals, grouping and the
reading of headers do not look at the texts either.
-/

namespace JavaUnits

namespace Token

def bare (t : Token) : Token :=
  { t with position := .start }

@[simp] theorem bare_kind (t : Token) : t.bare.kind = t.kind := rfl

@[simp] theorem bare_value (t : Token) : t.bare.value = t.value := rfl

@[simp] theorem bare_bare (t : Token) : t.bare.bare = t.bare := rfl

@[simp] theorem opensBrace_bare (t : Token) : t.bare.opensBrace = t.opensBrace := rfl

@[simp] theorem closesBrace_bare (t : Token) : t.bare.closesBrace = t.closesBrace := rfl

@[simp] theorem opensParen_bare (t : Token) : t.bare.opensParen = t.opensParen := rfl

@[simp] theorem closesParen_bare (t : Token) : t.bare.closesParen = t.closesParen := rfl

@[simp] theorem isSemicolon_bare (t : Token) : t.bare.isSemicolon = t.isSemicolon := rfl

@[simp] theorem isModifier_bare (t : Token) : t.bare.isModifier = t.isModifier := rfl

@[simp] theorem isIdentifier_bare (t : Token) : t.bare.isIdentifier = t.isIdentifier := rfl

@[simp] theorem isKeyword_bare (t : Token) (value : Text) :
    t.bare.isKeyword value = t.isKeyword value := rfl

@[simp] theorem opensType_bare (previous : Option Token) (t : Token) :
    t.bare.opensType (previous.map bare) = t.opensType previous := by
  cases previous <;> rfl

/-- Whether the function leaves all of a token but its place and the text of a literal. -/
structure Blurs (f : Token → Token) : Prop where
  kind : ∀ t, (f t).kind = t.kind
  value : ∀ t, t.kind ≠ .string → (f t).value = t.value

namespace Blurs

variable {f : Token → Token} (blurs : Blurs f)
include blurs

theorem isSeparator (t : Token) (value : Text) :
    (f t).isSeparator value = t.isSeparator value := by
  rw [Token.isSeparator, Token.isSeparator, blurs.kind]
  by_cases separator : t.kind = .separator
  · rw [blurs.value t (by simp [separator])]
  · simp [separator]

theorem opensBrace (t : Token) : (f t).opensBrace = t.opensBrace := blurs.isSeparator t _

theorem closesBrace (t : Token) : (f t).closesBrace = t.closesBrace := blurs.isSeparator t _

theorem opensParen (t : Token) : (f t).opensParen = t.opensParen := blurs.isSeparator t _

theorem closesParen (t : Token) : (f t).closesParen = t.closesParen := blurs.isSeparator t _

theorem isSemicolon (t : Token) : (f t).isSemicolon = t.isSemicolon := blurs.isSeparator t _

theorem isModifier (t : Token) : (f t).isModifier = t.isModifier := by
  rw [Token.isModifier, Token.isModifier, blurs.kind]

theorem isIdentifier (t : Token) : (f t).isIdentifier = t.isIdentifier := by
  rw [Token.isIdentifier, Token.isIdentifier, blurs.kind]

theorem value_of_isModifier {t : Token} (modifier : t.isModifier = true) :
    (f t).value = t.value := by
  rw [Token.isModifier, decide_eq_true_eq] at modifier
  exact blurs.value t (by simp [modifier])

theorem value_of_isIdentifier {t : Token} (identifier : t.isIdentifier = true) :
    (f t).value = t.value := by
  rw [Token.isIdentifier, decide_eq_true_eq] at identifier
  exact blurs.value t (by simp [identifier])

theorem value_of_isKeyword {t : Token} (keyword : t.kind.isKeyword = true) :
    (f t).value = t.value := by
  refine blurs.value t fun literal => ?_
  rw [literal] at keyword
  cases keyword

theorem isKeyword (t : Token) (value : Text) : (f t).isKeyword value = t.isKeyword value := by
  rw [Token.isKeyword, Token.isKeyword, blurs.kind]
  by_cases keyword : t.kind.isKeyword = true
  · rw [blurs.value_of_isKeyword keyword]
  · simp [keyword]

theorem opensType (previous : Option Token) (t : Token) :
    (f t).opensType (previous.map f) = t.opensType previous := by
  rw [Token.opensType, Token.opensType, blurs.kind, Option.map_map]
  have dot : (Token.isSeparator · ".") ∘ f = (Token.isSeparator · ".") :=
    funext fun t => blurs.isSeparator t _
  rw [dot]
  by_cases keyword : t.kind.isKeyword = true
  · rw [blurs.value_of_isKeyword keyword]
  · simp [keyword]

end Blurs

theorem blurs_bare : Blurs bare where
  kind _ := rfl
  value _ _ := rfl

end Token

open Token

/-- The token that a piece becomes, without its place. -/
def Piece.token (p : Piece) : Token :=
  ⟨p.kind, p.lexeme, .start⟩

theorem Scan.bare_tokensFrom (q : Position) (ps : List Piece) :
    (tokensFrom q ps).map bare = ps.map Piece.token := by
  induction ps generalizing q with
  | nil => rfl
  | cons p ps ih =>
    simp only [tokensFrom, List.map_cons, ih]
    rfl

namespace Item

variable {p : Progress} {t : Token} {ts xs ys : List Token}

/-! ## Neither positions nor the texts of literals count -/

section

variable {f : Token → Token} (blurs : Blurs f)
include blurs

theorem take_map (p : Progress) (t : Token) :
    Progress.take ⟨p.tokens.map f, p.depth, p.isType⟩ (f t)
      = (⟨(p.take t).1.tokens.map f, (p.take t).1.depth, (p.take t).1.isType⟩, (p.take t).2) := by
  simp only [Progress.take, blurs.opensBrace, blurs.closesBrace, blurs.isSemicolon, List.head?_map,
    blurs.opensType]
  split
  · rfl
  split <;> rfl

theorem groupFrom_map (p : Progress) (ts : List Token) :
    groupFrom ⟨p.tokens.map f, p.depth, p.isType⟩ (ts.map f)
      = (groupFrom p ts).map (List.map f) := by
  induction ts generalizing p with
  | nil =>
    simp only [groupFrom, List.map_nil, List.isEmpty_map]
    split <;> simp
  | cons t ts ih =>
    simp only [List.map_cons, groupFrom, take_map blurs]
    rcases taken : p.take t with ⟨q, ended⟩
    cases ended with
    | true => simpa using ih {}
    | false => exact ih q

theorem group_map (ts : List Token) : group (ts.map f) = (group ts).map (List.map f) :=
  groupFrom_map blurs {} ts

end

theorem group_bare (ts : List Token) : group (ts.map bare) = (group ts).map (List.map bare) :=
  group_map blurs_bare ts

/-! ## Where items end -/

theorem take_tokens (p : Progress) (t : Token) : (p.take t).1.tokens = t :: p.tokens := by
  simp only [Progress.take]
  split
  · rfl
  split <;> rfl

/-- Whether an item begun with `p` ends with the last of the tokens and not before. -/
def endsWithLast (p : Progress) : List Token → Bool
  | [] => false
  | t :: ts =>
    match p.take t with
    | (_, true) => ts.isEmpty
    | (q, false) => endsWithLast q ts

/-- A sequence of tokens that is one item, whatever follows it. -/
def IsClosed (item : Item) : Prop :=
  endsWithLast {} item = true

instance (item : Item) : Decidable (IsClosed item) :=
  inferInstanceAs (Decidable (_ = _))

theorem groupFrom_append (closed : endsWithLast p xs = true) (ys : List Token) :
    groupFrom p (xs ++ ys) = (p.tokens.reverse ++ xs) :: group ys := by
  induction xs generalizing p with
  | nil => simp [endsWithLast] at closed
  | cons t xs ih =>
    have tokens := take_tokens p t
    simp only [List.cons_append, groupFrom, endsWithLast] at closed ⊢
    rcases taken : p.take t with ⟨q, ended⟩
    rw [taken] at closed tokens
    cases ended with
    | true =>
      simp only [List.isEmpty_iff] at closed
      subst closed
      simp only at tokens
      simp [tokens, group]
    | false =>
      simp only at closed tokens
      simp [ih closed, tokens]

theorem group_append {item : Item} (closed : item.IsClosed) (ts : List Token) :
    group (item ++ ts) = item :: group ts := by
  simpa [group] using groupFrom_append closed ts

@[simp] theorem group_nil : group [] = [] := rfl

theorem group_flatten {items : List Item} (closed : ∀ item ∈ items, item.IsClosed)
    (ts : List Token) : group (items.flatten ++ ts) = items ++ group ts := by
  induction items with
  | nil => rfl
  | cons item items ih =>
    rw [List.forall_mem_cons] at closed
    rw [List.flatten_cons, List.append_assoc, group_append closed.1, ih closed.2]
    rfl

theorem group_of_flatten {items : List Item} (closed : ∀ item ∈ items, item.IsClosed) :
    group items.flatten = items := by
  have whole := group_flatten closed []
  rwa [List.append_nil, group_nil, List.append_nil] at whole

theorem groupFrom_cases (p : Progress) (ts : List Token) :
    (∃ xs ys, ts = xs ++ ys ∧ endsWithLast p xs = true) ∨
      groupFrom p ts
        = if (p.tokens.reverse ++ ts).isEmpty then [] else [p.tokens.reverse ++ ts] := by
  induction ts generalizing p with
  | nil => simp [groupFrom]
  | cons t ts ih =>
    have tokens := take_tokens p t
    rcases taken : p.take t with ⟨q, ended⟩
    rw [taken] at tokens
    cases ended with
    | true => exact .inl ⟨[t], ts, rfl, by simp [endsWithLast, taken]⟩
    | false =>
      rcases ih q with ⟨xs, ys, rfl, closed⟩ | left
      · exact .inl ⟨t :: xs, ys, rfl, by simpa [endsWithLast, taken] using closed⟩
      · right
        simp only at tokens
        simp [groupFrom, taken, left, tokens]

/-- The tokens are the items that end among them, and those that are left over. -/
theorem group_spec (ts : List Token) : ∃ items rest, ts = items.flatten ++ rest ∧
    (∀ item ∈ items, item.IsClosed) ∧
    group ts = items ++ if rest.isEmpty then [] else [rest] := by
  rcases groupFrom_cases {} ts with ⟨xs, ys, rfl, closed⟩ | left
  · have shorter : ys.length < (xs ++ ys).length := by
      cases xs with
      | nil => simp [endsWithLast] at closed
      | cons x xs =>
        simp only [List.length_append, List.length_cons]
        omega
    obtain ⟨items, rest, rfl, all, grouped⟩ := group_spec ys
    refine ⟨xs :: items, rest, by simp, List.forall_mem_cons.2 ⟨closed, all⟩, ?_⟩
    rw [group_append closed, grouped]
    rfl
  · exact ⟨[], ts, rfl, by simp, by simpa [group] using left⟩
termination_by ts.length

theorem flatten_group (ts : List Token) : (group ts).flatten = ts := by
  obtain ⟨items, rest, rfl, -, grouped⟩ := group_spec ts
  rw [grouped]
  cases rest <;> simp

theorem endsWithLast_last (closed : endsWithLast p ts = true) :
    ∃ xs t, ts = xs ++ [t] ∧ (t.isSemicolon = true ∨ t.closesBrace = true) := by
  induction ts generalizing p with
  | nil => simp [endsWithLast] at closed
  | cons t ts ih =>
    simp only [endsWithLast] at closed
    rcases taken : p.take t with ⟨q, ended⟩
    rw [taken] at closed
    cases ended with
    | true =>
      simp only [List.isEmpty_iff] at closed
      refine ⟨[], t, by simp [closed], ?_⟩
      simp only [Progress.take] at taken
      split at taken
      · simp at taken
      split at taken
      · rename_i brace
        exact .inr brace
      · simp only [Prod.mk.injEq, Bool.and_eq_true] at taken
        exact .inl taken.2.1
    | false =>
      obtain ⟨xs, last, rfl, mark⟩ := ih closed
      exact ⟨t :: xs, last, rfl, mark⟩

theorem IsClosed.ne_nil {item : Item} (closed : item.IsClosed) : item ≠ [] := by
  rintro rfl
  simp [IsClosed, endsWithLast] at closed

theorem endsWithLast_bare (p : Progress) (ts : List Token) :
    endsWithLast ⟨p.tokens.map bare, p.depth, p.isType⟩ (ts.map bare) = endsWithLast p ts := by
  induction ts generalizing p with
  | nil => rfl
  | cons t ts ih =>
    simp only [List.map_cons, endsWithLast, take_map blurs_bare]
    rcases taken : p.take t with ⟨q, ended⟩
    cases ended with
    | true => simp
    | false => exact ih q

theorem isClosed_bare (item : Item) : IsClosed (item.map bare) ↔ item.IsClosed := by
  rw [IsClosed, IsClosed]
  exact Eq.congr (endsWithLast_bare {} item) rfl

end Item

namespace Header

def bare (h : Header) : Header :=
  { h with
    first := h.first.bare
    keyword := h.keyword.bare
    visibilityToken := h.visibilityToken.map Token.bare
    anchor := h.anchor.bare }

/-- The header with its tokens in other places. -/
def moved (f : Token → Token) (h : Header) : Header :=
  { h with
    first := f h.first
    keyword := f h.keyword
    visibilityToken := h.visibilityToken.map f
    anchor := f h.anchor }

theorem splitAtKeyword?_eq_some {passed ts before rest : List Token} {parens braces : Nat}
    {keyword : Token}
    (split : splitAtKeyword? passed parens braces ts = some (before, keyword, rest)) :
    passed.reverse ++ ts = before ++ keyword :: rest ∧
      ∃ previous, keyword.opensType previous = true := by
  induction ts generalizing passed parens braces with
  | nil => simp [splitAtKeyword?] at split
  | cons t ts ih =>
    have later {parens braces : Nat}
        (split : splitAtKeyword? (t :: passed) parens braces ts = some (before, keyword, rest)) :
        passed.reverse ++ t :: ts = before ++ keyword :: rest ∧
          ∃ previous, keyword.opensType previous = true := by
      simpa using ih split
    rw [splitAtKeyword?] at split
    split at split
    · exact later split
    split at split
    · exact later split
    split at split
    · split at split
      · simp at split
      · exact later split
    split at split
    · exact later split
    split at split
    · rename_i opens
      simp only [Option.some.injEq, Prod.mk.injEq] at split
      obtain ⟨rfl, rfl, rfl⟩ := split
      exact ⟨rfl, _, opens.2.2⟩
    · exact later split

section

variable {f : Token → Token} (blurs : Blurs f)
include blurs

theorem splitAtKeyword?_map (passed : List Token) (parens braces : Nat) (ts : List Token) :
    splitAtKeyword? (passed.map f) parens braces (ts.map f)
      = (splitAtKeyword? passed parens braces ts).map fun (before, keyword, rest) =>
        (before.map f, f keyword, rest.map f) := by
  induction ts generalizing passed parens braces with
  | nil => rfl
  | cons t ts ih =>
    have ih := ih (t :: passed)
    simp only [List.map_cons] at ih
    simp only [List.map_cons, splitAtKeyword?, blurs.opensParen, blurs.closesParen,
      blurs.opensBrace, blurs.closesBrace, List.head?_map, blurs.opensType, ih]
    split
    · rfl
    split
    · rfl
    split
    · split <;> rfl
    split
    · rfl
    split
    · simp
    · rfl

theorem outsideParens_map (parens : Nat) (ts : List Token) :
    outsideParens parens (ts.map f) = (outsideParens parens ts).map f := by
  induction ts generalizing parens with
  | nil => rfl
  | cons t ts ih =>
    simp only [List.map_cons, outsideParens, blurs.opensParen, blurs.closesParen, ih]
    split
    · rfl
    split
    · rfl
    split <;> rfl

theorem namesMain_map (ts : List Token) : namesMain (ts.map f) = namesMain ts := by
  match ts with
  | [] => rfl
  | [_] => rfl
  | name :: _ :: _ =>
    simp only [List.map_cons, namesMain, blurs.isIdentifier, blurs.opensParen]
    cases identifier : name.isIdentifier with
    | true => rw [blurs.value_of_isIdentifier identifier]
    | false => rfl

theorem hasMain_map (depth : Nat) (seen : List Text) (ts : List Token) :
    hasMain depth seen (ts.map f) = hasMain depth seen ts := by
  induction ts generalizing depth seen with
  | nil => rfl
  | cons t ts ih =>
    simp only [List.map_cons, hasMain, blurs.opensBrace, blurs.closesBrace, blurs.kind,
      blurs.isSemicolon, blurs.isModifier, blurs.isKeyword, namesMain_map blurs, ih]
    cases modifier : t.isModifier with
    | true => rw [blurs.value_of_isModifier modifier]
    | false => simp

theorem find?_map {ts : List Token} (modifiers : ∀ t ∈ ts, t.isModifier = true)
    (test : Text → Bool) :
    (ts.map f).find? (fun t => test t.value) = (ts.find? fun t => test t.value).map f := by
  induction ts with
  | nil => rfl
  | cons t ts ih =>
    rw [List.forall_mem_cons] at modifiers
    rw [List.map_cons, List.find?_cons, List.find?_cons, blurs.value_of_isModifier modifiers.1,
      ih modifiers.2]
    cases test t.value <;> rfl

/-- What a header says depends neither on where its item stands nor on literals. -/
theorem ofItem?_map (item : Item) : ofItem? (item.map f) = (ofItem? item).map (moved f) := by
  cases item with
  | nil => rfl
  | cons first item =>
    have split := splitAtKeyword?_map blurs [] 0 0 (first :: item)
    simp only [List.map_nil, List.map_cons] at split
    simp only [ofItem?, List.map_cons, split]
    rcases found : splitAtKeyword? [] 0 0 (first :: item) with _ | ⟨before, keyword, rest⟩
    · rfl
    cases rest with
    | nil => rfl
    | cons name rest =>
      have main := hasMain_map blurs 0 [] (keyword :: name :: rest)
      simp only [List.map_cons] at main
      simp only [Option.map_some, List.map_cons, blurs.isIdentifier]
      by_cases identifier : name.isIdentifier = true
      · rw [if_pos identifier, if_pos identifier]
        have modifiers : (outsideParens 0 (before.map f)).filter isModifier
            = ((outsideParens 0 before).filter isModifier).map f := by
          rw [outsideParens_map blurs, List.filter_map]
          congr 2
          exact funext blurs.isModifier
        have all : ∀ t ∈ (outsideParens 0 before).filter isModifier, t.isModifier = true :=
          fun t mem => (List.mem_filter.1 mem).2
        have words : (((outsideParens 0 before).filter isModifier).map f).map Token.value
            = ((outsideParens 0 before).filter isModifier).map Token.value := by
          rw [List.map_map]
          exact List.map_congr_left fun t mem => blurs.value_of_isModifier (all t mem)
        have keywordValue : (f keyword).value = keyword.value := by
          obtain ⟨-, previous, opens⟩ := splitAtKeyword?_eq_some found
          simp only [opensType, Bool.and_eq_true] at opens
          exact blurs.value_of_isKeyword opens.1.1
        have visible := find?_map blurs all fun v => (Visibility.ofModifier? v).isSome
        have other := find?_map blurs all fun v => !(Visibility.ofModifier? v).isSome
        simp only [main, modifiers, words, visible, other, Option.map_some, Option.some.injEq,
          moved, keywordValue, blurs.value_of_isIdentifier identifier, List.getLast?_map]
        congr 1
        cases ((outsideParens 0 before).filter isModifier).find? fun t =>
          !(Visibility.ofModifier? t.value).isSome with
        | some t => rfl
        | none =>
          cases before.getLast? with
          | none => rfl
          | some t =>
            simp only [Option.map_some, Option.map_none, Option.getD_none, blurs.kind]
            by_cases sign : t.kind = .atSign
            · rw [if_pos sign, if_pos sign]
            · rw [if_neg sign, if_neg sign]
      · rw [if_neg identifier, if_neg identifier]
        rfl

end

theorem outsideParens_bare (parens : Nat) (ts : List Token) :
    outsideParens parens (ts.map Token.bare) = (outsideParens parens ts).map Token.bare :=
  outsideParens_map blurs_bare parens ts

theorem ofItem?_bare (item : Item) :
    ofItem? (item.map Token.bare) = (ofItem? item).map bare :=
  ofItem?_map blurs_bare item

theorem outsideParens_sublist (parens : Nat) (ts : List Token) :
    (outsideParens parens ts).Sublist ts := by
  induction ts generalizing parens with
  | nil => exact List.Sublist.slnil
  | cons t ts ih =>
    rw [outsideParens]
    split
    · exact (ih _).cons t
    split
    · exact (ih _).cons t
    split
    · exact (ih _).cons_cons t
    · exact (ih _).cons t

theorem ofItem?_split {item : Item} {h : Header} (found : ofItem? item = some h) :
    ∃ before name rest, item = before ++ h.keyword :: name :: rest ∧ item.head? = some h.first ∧
      (∃ previous, h.keyword.opensType previous = true) ∧
      (h.anchor ∈ before ∧ (h.anchor.kind = .modifier ∨ h.anchor.kind = .atSign) ∨
        h.anchor = h.keyword) ∧
      ∀ v, h.visibilityToken = some v →
        v ∈ before ∧ v.isModifier = true ∧ (Visibility.ofModifier? v.value).isSome = true := by
  cases item with
  | nil => simp [ofItem?] at found
  | cons first item =>
    rcases split : splitAtKeyword? [] 0 0 (first :: item) with _ | ⟨before, keyword, rest⟩
    · simp [ofItem?, split] at found
    · obtain ⟨whole, opens⟩ := splitAtKeyword?_eq_some split
      cases rest with
      | nil => simp [ofItem?, split] at found
      | cons name rest =>
        simp only [ofItem?, split] at found
        split at found
        · simp only [Option.some.injEq] at found
          subst found
          have inModifiers {t : Token} {test : Token → Bool}
              (mem : ((outsideParens 0 before).filter isModifier).find? test = some t) :
              t ∈ before ∧ t.isModifier = true ∧ test t = true := by
            have inside := List.mem_filter.1 (List.mem_of_find?_eq_some mem)
            exact ⟨(outsideParens_sublist 0 before).subset inside.1, inside.2,
              List.find?_some mem⟩
          refine ⟨before, name, rest, by simpa using whole, rfl, opens, ?_, fun v => inModifiers⟩
          simp only
          cases anchor : ((outsideParens 0 before).filter isModifier).find? fun t =>
              !(Visibility.ofModifier? t.value).isSome with
          | some t =>
            obtain ⟨mem, isModifier, -⟩ := inModifiers anchor
            exact .inl ⟨mem, .inl (by simpa [Token.isModifier] using isModifier)⟩
          | none =>
            cases last : before.getLast? with
            | none => exact .inr rfl
            | some t =>
              simp only [Option.getD_none]
              split
              · rename_i atSign
                exact .inl ⟨List.mem_of_getLast? last, .inr atSign⟩
              · exact .inr rfl
        · simp at found

theorem ofItem?_mem {item : Item} {h : Header} (found : ofItem? item = some h) :
    item.head? = some h.first ∧ h.anchor ∈ item ∧ ∀ v, h.visibilityToken = some v → v ∈ item := by
  obtain ⟨before, name, rest, rfl, head, -, anchor, visible⟩ := ofItem?_split found
  refine ⟨head, ?_, fun v is => by simp [(visible v is).1]⟩
  rcases anchor with anchor | anchor
  · simp [anchor.1]
  · simp [← anchor]

theorem ofModifier?_eq_some {word : Text} {v : Visibility}
    (found : Visibility.ofModifier? word = some v) : v.word = word ∧ v ≠ .packageAccess := by
  have mem := List.mem_of_find?_eq_some found
  have same := List.find?_some found
  refine ⟨by simpa using same, ?_⟩
  rintro rfl
  simp at mem

/-- A modifier that sets the visibility stands before another token of its item. -/
theorem ofItem?_visibility {item : Item} {h : Header} {v : Token} (found : ofItem? item = some h)
    (visible : h.visibilityToken = some v) :
    v.kind = .modifier ∧ v.value = h.visibility.word ∧ h.visibility ≠ .packageAccess ∧
      ∀ front back, item = front ++ v :: back → v ∉ front → back ≠ [] := by
  obtain ⟨before, name, rest, rfl, -, -, -, facts⟩ := ofItem?_split found
  obtain ⟨mem, isModifier, isVisibility⟩ := facts v visible
  obtain ⟨access, word⟩ := Option.isSome_iff_exists.1 isVisibility
  have same : h.visibility = access := by
    rw [visibility, visible]
    simp [word]
  refine ⟨by simpa [Token.isModifier] using isModifier, ?_, ?_, ?_⟩
  · rw [same, (ofModifier?_eq_some word).1]
  · rw [same]
    exact (ofModifier?_eq_some word).2
  · rintro front back split none rfl
    apply none
    have init := congrArg List.dropLast split
    rw [List.dropLast_concat, List.dropLast_append_of_ne_nil (by simp)] at init
    rw [← init]
    exact List.mem_append_left _ mem

end Header

theorem Item.joinValues_bare (ts : List Token) :
    Item.joinValues (ts.map Token.bare) = Item.joinValues ts := by
  induction ts with
  | nil => rfl
  | cons t ts ih =>
    simp only [Item.joinValues] at ih
    rw [Item.joinValues, Item.joinValues, List.map_cons]
    by_cases semicolon : t.value = Text.ofString ";"
    · rw [List.filter_cons_of_neg (by simp [semicolon]), ih,
        List.filter_cons_of_neg (by simp [semicolon])]
    · rw [List.filter_cons_of_pos (by simpa using semicolon), List.flatMap_cons, ih,
        List.filter_cons_of_pos (by simpa using semicolon), List.flatMap_cons, bare_value]

theorem Import.ofItem_bare (item : Item) : Import.ofItem (item.map Token.bare) = .ofItem item := by
  match item with
  | [] => rfl
  | [_] => rfl
  | _ :: t :: rest =>
    have whole := Item.joinValues_bare (t :: rest)
    simp only [List.map_cons] at whole
    simp only [Import.ofItem, List.map_cons, List.drop_succ_cons, List.drop_zero, isModifier_bare,
      bare_value, whole, Item.joinValues_bare]

theorem collect_map {f : Token → Token} (blurs : Blurs f) (previous : Option Token)
    (ts : List Token) :
    declaredNames.collect (previous.map f) (ts.map f) = declaredNames.collect previous ts := by
  match ts with
  | [] => rfl
  | [_] => rfl
  | t :: name :: ts =>
    have ih := collect_map blurs (some t) (name :: ts)
    simp only [Option.map_some, List.map_cons] at ih
    simp only [List.map_cons, declaredNames.collect, ih, blurs.opensType, blurs.isIdentifier]
    cases identifier : name.isIdentifier with
    | true => rw [blurs.value_of_isIdentifier identifier]
    | false => simp

theorem collect_bare (previous : Option Token) (ts : List Token) :
    declaredNames.collect (previous.map Token.bare) (ts.map Token.bare)
      = declaredNames.collect previous ts :=
  collect_map blurs_bare previous ts

end JavaUnits
