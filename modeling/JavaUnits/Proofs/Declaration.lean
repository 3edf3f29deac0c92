import JavaUnits.Proofs.Group

/-!
Declarations by their tokens: package and import declarations of plain names, and types with
modifiers and annotations in front, a header and a body in braces. Each is one item whatever follows
it, and what a header says of a type can be read off the parts.
-/

namespace JavaUnits

namespace Token

/-- Whether every closing token closes one that is open; `depth` are open before. -/
def balances (opens closes : Token → Bool) (depth : Nat) : List Token → Bool
  | [] => depth == 0
  | t :: ts =>
    if opens t then balances opens closes (depth + 1) ts
    else if closes t then depth != 0 && balances opens closes (depth - 1) ts
    else balances opens closes depth ts

/-- Whether no type keyword stands among the tokens, save behind a dot. -/
def opensNone (previous : Option Token) : List Token → Bool
  | [] => true
  | t :: ts => !t.opensType previous && opensNone (some t) ts

/-- Names with dots between them. -/
def isPath : List Token → Bool
  | [] => false
  | [t] => t.isIdentifier
  | t :: dot :: ts => t.isIdentifier && dot.isSeparator "." && isPath ts

def isDot (previous : Option Token) : Bool :=
  (previous.map fun t => t.isSeparator ".").getD false

structure IsArguments (ts : List Token) : Prop where
  parts : ∃ opening inner closing, ts = opening :: (inner ++ [closing]) ∧
    opening.opensParen = true ∧ closing.closesParen = true ∧
    balances opensParen closesParen 0 inner = true ∧
    balances opensBrace closesBrace 0 inner = true ∧
    (∀ t ∈ inner, t.isSemicolon = false) ∧ opensNone (some opening) inner = true

inductive IsMarks : List Token → Prop
  | nil : IsMarks []
  | modifier {t : Token} {ts : List Token} : t.kind = .modifier → t.value ∈ modifiers →
      IsMarks ts → IsMarks (t :: ts)
  | annotated {sign : Token} {path arguments ts : List Token} : sign.kind = .atSign →
      isPath path = true → arguments = [] ∨ IsArguments arguments → IsMarks ts →
      IsMarks (sign :: (path ++ (arguments ++ ts)))

end Token

open Token

def Header.modifiersOf (marks : List Token) : List Token :=
  (outsideParens 0 marks).filter isModifier

def Token.isVisibility (t : Token) : Bool :=
  (Visibility.ofModifier? t.value).isSome

/-- The declaration of a type: its marks, the keyword, perhaps behind an at sign, the name, what is
left of the header, and the body in braces. -/
structure TypeSyntax where
  marks : List Token
  sign : List Token
  keyword : Token
  name : Token
  tail : List Token
  opening : Token
  body : List Token
  closing : Token

namespace TypeSyntax

def tokens (d : TypeSyntax) : List Token :=
  d.marks ++ (d.sign ++ d.keyword :: d.name :: (d.tail ++ d.opening :: (d.body ++ [d.closing])))

structure IsSound (d : TypeSyntax) : Prop where
  marks : IsMarks d.marks
  sign : d.sign = [] ∨ ∃ t, d.sign = [t] ∧ t.kind = .atSign
  keyword : d.keyword.opensType none = true
  name : d.name.isIdentifier = true
  tail : ∀ t ∈ d.tail, t.opensBrace = false ∧ t.closesBrace = false ∧ t.isSemicolon = false
  opening : d.opening.opensBrace = true
  body : balances opensBrace closesBrace 0 d.body = true
  closing : d.closing.closesBrace = true
  /-- At most one modifier sets the visibility. -/
  visibility : ((Header.modifiersOf d.marks).filter isVisibility).length ≤ 1

/-- Whether the parts are those of a declaration, whatever its modifiers. -/
structure IsFormed (d : TypeSyntax) : Prop where
  marks : IsMarks d.marks
  sign : d.sign = [] ∨ ∃ t, d.sign = [t] ∧ t.kind = .atSign
  keyword : d.keyword.opensType none = true
  name : d.name.isIdentifier = true
  tail : ∀ t ∈ d.tail, t.opensBrace = false ∧ t.closesBrace = false ∧ t.isSemicolon = false
  opening : d.opening.opensBrace = true
  body : balances opensBrace closesBrace 0 d.body = true
  closing : d.closing.closesBrace = true

theorem IsSound.isFormed {d : TypeSyntax} (sound : d.IsSound) : d.IsFormed where
  marks := sound.marks
  sign := sound.sign
  keyword := sound.keyword
  name := sound.name
  tail := sound.tail
  opening := sound.opening
  body := sound.body
  closing := sound.closing

end TypeSyntax

namespace Item

def IsTypeDeclaration (item : Item) : Prop :=
  ∃ d : TypeSyntax, d.IsSound ∧ item = d.tokens

/-- Whether the item declares the package. -/
def IsPackage (item : Item) : Prop :=
  ∃ keyword path mark, item = keyword :: (path ++ [mark]) ∧
    keyword.isKeyword "package" = true ∧ isPath path = true ∧ mark.isSemicolon = true

/-- Whether the item imports a plain name, or all that a plain name holds. -/
def IsImport (item : Item) : Prop :=
  ∃ keyword scope path wildcard mark,
    item = keyword :: (scope ++ (path ++ (wildcard ++ [mark]))) ∧
    keyword.isKeyword "import" = true ∧
    (scope = [] ∨ ∃ t, scope = [t] ∧ t.kind = .modifier ∧ t.value = Text.ofString "static") ∧
    isPath path = true ∧
    (wildcard = [] ∨ ∃ dot star, wildcard = [dot, star] ∧ dot.isSeparator "." = true ∧
      star.kind = .operator ∧ star.value = Text.ofString "*") ∧
    mark.isSemicolon = true

def IsDeclaration (item : Item) : Prop :=
  item.IsPackage ∨ item.IsImport ∨ item.IsTypeDeclaration

end Item

/-! ## Tokens that end no item -/

namespace Item

/-- Whether an item begun with `p` goes on through the tokens, after which it is `q`. -/
inductive Passes : Progress → List Token → Progress → Prop
  | nil (p : Progress) : Passes p [] p
  | cons {p q r : Progress} {t : Token} {ts : List Token} : p.take t = (q, false) →
      Passes q ts r → Passes p (t :: ts) r

variable {p q r : Progress} {t : Token} {xs ys : List Token}

theorem Passes.append (front : Passes p xs q) (back : Passes q ys r) : Passes p (xs ++ ys) r := by
  induction front with
  | nil => exact back
  | cons taken _ ih => exact .cons taken (ih back)

theorem Passes.endsWithLast (passes : Passes p xs q) (ys : List Token) :
    Item.endsWithLast p (xs ++ ys) = Item.endsWithLast q ys := by
  induction passes with
  | nil => rfl
  | cons taken _ ih =>
    rw [List.cons_append, Item.endsWithLast, taken]
    exact ih

theorem isSeparator_eq_false {value : Text} (other : t.kind ≠ .separator) :
    t.isSeparator value = false := by
  simp [Token.isSeparator, other]

theorem take_quiet (p : Progress) (opens : t.opensBrace = false) (closes : t.closesBrace = false)
    (mark : t.isSemicolon = false) : p.take t
      = (⟨t :: p.tokens, p.depth, p.isType || (p.depth == 0 && t.opensType p.tokens.head?)⟩,
        false) := by
  simp [Progress.take, opens, closes, mark]

theorem opensType_of_not_isKeyword (other : t.kind.isKeyword = false) (previous : Option Token) :
    t.opensType previous = false := by
  simp [opensType, other]

theorem opensType_of_notMem (other : t.value ∉ typeKeywords) (previous : Option Token) :
    t.opensType previous = false := by
  simp [opensType, other]

theorem passes_inner {n : Nat} (balanced : balances opensBrace closesBrace n xs = true)
    (p : Progress) (depth : p.depth = n + 1) :
    Passes p xs ⟨xs.reverse ++ p.tokens, 1, p.isType⟩ := by
  induction xs generalizing p n with
  | nil =>
    rw [balances, beq_iff_eq] at balanced
    obtain ⟨tokens, depth', isType⟩ := p
    obtain rfl : depth' = 1 := by simpa [balanced] using depth
    exact .nil _
  | cons t xs ih =>
    have deep : (p.depth == 0) = false := by
      rw [depth]
      rfl
    rw [balances] at balanced
    rw [List.reverse_cons, List.append_assoc, List.singleton_append]
    split at balanced
    · rename_i opens
      refine .cons (q := ⟨t :: p.tokens, p.depth + 1, p.isType⟩) ?_
        (ih balanced _ (by simp only [depth]))
      simp [Progress.take, opens, deep]
    · rename_i opens
      split at balanced
      · rename_i closes
        rw [Bool.and_eq_true, bne_iff_ne] at balanced
        refine .cons (q := ⟨t :: p.tokens, p.depth - 1, p.isType⟩) ?_
          (ih balanced.2 _ (by simp only [depth]; omega))
        have more : (p.depth - 1 == 0) = false := by
          rw [beq_eq_false_iff_ne]
          omega
        simp [Progress.take, opens, closes, deep, more]
      · rename_i closes
        refine .cons (q := ⟨t :: p.tokens, p.depth, p.isType⟩) ?_ (ih balanced _ depth)
        simp [Progress.take, opens, closes, deep]

theorem passes_arguments {n : Nat} (balanced : balances opensBrace closesBrace n xs = true)
    (noMark : ∀ t ∈ xs, t.isSemicolon = false) (p : Progress) (depth : p.depth = n)
    (noType : p.isType = false) (none : opensNone p.tokens.head? xs = true) :
    Passes p xs ⟨xs.reverse ++ p.tokens, 0, false⟩ := by
  induction xs generalizing p n with
  | nil =>
    rw [balances, beq_iff_eq] at balanced
    obtain ⟨tokens, depth', isType⟩ := p
    obtain rfl : depth' = 0 := by simpa [balanced] using depth
    obtain rfl : isType = false := noType
    exact .nil _
  | cons t xs ih =>
    rw [opensNone, Bool.and_eq_true, Bool.not_eq_true'] at none
    rw [List.forall_mem_cons] at noMark
    rw [balances] at balanced
    rw [List.reverse_cons, List.append_assoc, List.singleton_append]
    split at balanced
    · rename_i opens
      refine .cons (q := ⟨t :: p.tokens, p.depth + 1, false⟩) ?_
        (ih balanced noMark.2 _ (by simp only [depth]) rfl none.2)
      simp [Progress.take, opens, noType, none.1]
    · rename_i opens
      split at balanced
      · rename_i closes
        rw [Bool.and_eq_true, bne_iff_ne] at balanced
        refine .cons (q := ⟨t :: p.tokens, p.depth - 1, false⟩) ?_
          (ih balanced.2 noMark.2 _ (by simp only [depth]) rfl none.2)
        simp [Progress.take, opens, closes, noType, none.1]
      · rename_i closes
        refine .cons (q := ⟨t :: p.tokens, p.depth, false⟩) ?_
          (ih balanced noMark.2 _ depth rfl none.2)
        simp [Progress.take, opens, closes, noMark.1, noType, none.1]

theorem passes_quiet (xs : List Token)
    (quiet : ∀ t ∈ xs, t.opensBrace = false ∧ t.closesBrace = false ∧
      t.isSemicolon = false) (p : Progress)
    (none : p.isType = true ∨ ∀ t ∈ xs, ∀ previous, t.opensType previous = false) :
    Passes p xs ⟨xs.reverse ++ p.tokens, p.depth, p.isType⟩ := by
  induction xs generalizing p with
  | nil => exact .nil p
  | cons t xs ih =>
    rw [List.forall_mem_cons] at quiet
    obtain ⟨⟨opens, closes, mark⟩, quiet⟩ := quiet
    rw [List.reverse_cons, List.append_assoc, List.singleton_append]
    refine .cons (q := ⟨t :: p.tokens, p.depth, p.isType⟩) ?_ (ih quiet _ ?_)
    · rw [take_quiet p opens closes mark]
      rcases none with isType | none
      · simp [isType]
      · simp [none t (by simp)]
    · exact none.imp id fun none t mem => none t (List.mem_cons_of_mem _ mem)

end Item

/-! ## Marks and types -/

namespace Token

variable {t : Token} {ts : List Token}

theorem eq_of_isSeparator {value other : Text} (is : t.isSeparator value = true)
    (apart : value ≠ other) : t.isSeparator other = false := by
  simp [isSeparator, (isSeparator_iff.1 is).2, apart]

/-- Names and dots are neither brackets nor semicolons nor type keywords. -/
structure IsPlainName (t : Token) : Prop where
  opensBrace : t.opensBrace = false
  closesBrace : t.closesBrace = false
  opensParen : t.opensParen = false
  closesParen : t.closesParen = false
  isSemicolon : t.isSemicolon = false
  opensType : ∀ previous, t.opensType previous = false
  isModifier : t.isModifier = false

theorem isPath_mem (path : isPath ts = true) :
    ∀ t ∈ ts, t.isIdentifier = true ∨ t.isSeparator "." = true := by
  fun_induction isPath ts with
  | case1 => simp at path
  | case2 t => simpa using .inl path
  | case3 t dot ts ih =>
    simp only [Bool.and_eq_true] at path
    simp only [List.forall_mem_cons]
    exact ⟨.inl path.1.1, .inr path.1.2, ih path.2⟩

theorem isPlainName_of_isPath (path : isPath ts = true) : ∀ t ∈ ts, t.IsPlainName := by
  intro t mem
  rcases isPath_mem path t mem with is | is
  · have kind : t.kind = .identifier := of_decide_eq_true is
    constructor <;> simp [Token.opensBrace, Token.closesBrace, Token.opensParen,
      Token.closesParen, Token.isSemicolon, isSeparator, kind, Token.opensType, Kind.isKeyword,
      Token.isModifier]
  · have kind := (isSeparator_iff.1 is).1
    constructor
    · exact eq_of_isSeparator is (by decide)
    · exact eq_of_isSeparator is (by decide)
    · exact eq_of_isSeparator is (by decide)
    · exact eq_of_isSeparator is (by decide)
    · exact eq_of_isSeparator is (by decide)
    · simp [Token.opensType, kind, Kind.isKeyword]
    · simp [Token.isModifier, kind]

theorem isPath_last (path : isPath ts = true) :
    ∃ init last, ts = init ++ [last] ∧ last.isIdentifier = true := by
  fun_induction isPath ts with
  | case1 => simp at path
  | case2 t => exact ⟨[], t, rfl, path⟩
  | case3 t mark ts ih =>
    simp only [Bool.and_eq_true] at path
    obtain ⟨init, last, rfl, is⟩ := ih path.2
    exact ⟨t :: mark :: init, last, rfl, is⟩

theorem IsMarks.append {ms ns : List Token} (front : IsMarks ms) (back : IsMarks ns) :
    IsMarks (ms ++ ns) := by
  induction front with
  | nil => exact back
  | modifier kind mem _ ih => exact .modifier kind mem ih
  | annotated kind names isArguments _ ih =>
    rw [List.cons_append, List.append_assoc, List.append_assoc]
    exact .annotated kind names isArguments ih

theorem isModifier_apart (kind : t.kind = .modifier) (mem : t.value ∈ modifiers) :
    t.opensBrace = false ∧ t.closesBrace = false ∧ t.opensParen = false ∧
      t.closesParen = false ∧ t.isSemicolon = false ∧ ∀ previous, t.opensType previous = false := by
  have other : t.kind ≠ .separator := by simp [kind]
  refine ⟨Item.isSeparator_eq_false other, Item.isSeparator_eq_false other,
    Item.isSeparator_eq_false other, Item.isSeparator_eq_false other,
    Item.isSeparator_eq_false other, Item.opensType_of_notMem ?_⟩
  intro typeKeyword
  have apart : ∀ word ∈ modifiers, word ∉ typeKeywords := by decide
  exact apart t.value mem typeKeyword

theorem atSign_apart (kind : t.kind = .atSign) :
    t.opensBrace = false ∧ t.closesBrace = false ∧ t.opensParen = false ∧
      t.closesParen = false ∧ t.isSemicolon = false ∧ ∀ previous, t.opensType previous = false := by
  have other : t.kind ≠ .separator := by simp [kind]
  refine ⟨Item.isSeparator_eq_false other, Item.isSeparator_eq_false other,
    Item.isSeparator_eq_false other, Item.isSeparator_eq_false other,
    Item.isSeparator_eq_false other,
    Item.opensType_of_not_isKeyword (by simp [kind, Kind.isKeyword])⟩

end Token

namespace Item

open Token

theorem Passes.of_isArguments {ts : List Token} (arguments : IsArguments ts) (p : Progress)
    (depth : p.depth = 0) (noType : p.isType = false) :
    Passes p ts ⟨ts.reverse ++ p.tokens, 0, false⟩ := by
  obtain ⟨opening, inner, closing, rfl, opens, closes, -, braces, noMark, none⟩ := arguments.parts
  have paren {t : Token} {value : Text} (is : t.isSeparator value = true)
      (apart : value ≠ Text.ofString "\x7b" ∧ value ≠ Text.ofString "\x7d" ∧
        value ≠ Text.ofString ";") :
      t.opensBrace = false ∧ t.closesBrace = false ∧ t.isSemicolon = false :=
    ⟨eq_of_isSeparator is apart.1, eq_of_isSeparator is apart.2.1, eq_of_isSeparator is apart.2.2⟩
  have noKeyword {t : Token} {value : Text} (is : t.isSeparator value = true)
      (previous : Option Token) : t.opensType previous = false := by
    exact opensType_of_not_isKeyword (by rw [(isSeparator_iff.1 is).1]; rfl) previous
  have first := passes_quiet [opening] (by simpa using paren opens (by decide)) p
    (.inr (by simpa using noKeyword opens))
  rw [depth, noType] at first
  have second := passes_arguments braces noMark ⟨[opening].reverse ++ p.tokens, 0, false⟩ rfl rfl
    (by simpa using none)
  have third := passes_quiet [closing] (by simpa using paren closes (by decide))
    ⟨inner.reverse ++ ([opening].reverse ++ p.tokens), 0, false⟩
    (.inr (by simpa using noKeyword closes))
  simpa using first.append (second.append third)

theorem Passes.of_isMarks {ms : List Token} (marks : IsMarks ms) (p : Progress)
    (depth : p.depth = 0) (noType : p.isType = false) :
    Passes p ms ⟨ms.reverse ++ p.tokens, 0, false⟩ := by
  induction marks generalizing p with
  | nil =>
    obtain ⟨tokens, depth', isType⟩ := p
    obtain rfl : depth' = 0 := depth
    obtain rfl : isType = false := noType
    exact .nil _
  | @modifier t ts kind mem _ ih =>
    obtain ⟨opens, closes, -, -, mark, none⟩ := isModifier_apart kind mem
    have first := passes_quiet [t] (by simpa using ⟨opens, closes, mark⟩) p
      (.inr (by simpa using none))
    rw [depth, noType] at first
    simpa using first.append (ih ⟨[t].reverse ++ p.tokens, 0, false⟩ rfl rfl)
  | @annotated sign path arguments ts kind isPath isArguments _ ih =>
    obtain ⟨opens, closes, -, -, mark, none⟩ := atSign_apart kind
    have names := isPlainName_of_isPath isPath
    have first := passes_quiet [sign] (by simpa using ⟨opens, closes, mark⟩) p
      (.inr (by simpa using none))
    rw [depth, noType] at first
    have second := passes_quiet path (fun t mem => ⟨(names t mem).opensBrace,
      (names t mem).closesBrace, (names t mem).isSemicolon⟩) ⟨[sign].reverse ++ p.tokens, 0, false⟩
      (.inr fun t mem => (names t mem).opensType)
    have third : Passes ⟨path.reverse ++ ([sign].reverse ++ p.tokens), 0, false⟩ arguments
        ⟨arguments.reverse ++ (path.reverse ++ ([sign].reverse ++ p.tokens)), 0, false⟩ := by
      rcases isArguments with rfl | isArguments
      · exact .nil _
      · exact .of_isArguments isArguments _ rfl rfl
    have last := ih ⟨arguments.reverse ++ (path.reverse ++ ([sign].reverse ++ p.tokens)), 0, false⟩
      rfl rfl
    simpa using first.append (second.append (third.append last))

theorem isDot_of_isMarks {ms : List Token} (marks : IsMarks ms) (previous : List Token)
    (start : isDot previous.head? = false) : isDot (ms.reverse ++ previous).head? = false := by
  induction marks generalizing previous with
  | nil => exact start
  | @modifier t ts kind mem _ ih =>
    rw [List.reverse_cons, List.append_assoc]
    apply ih
    simp [isDot, isSeparator, kind]
  | @annotated sign path arguments ts kind isPath isArguments _ ih =>
    have flat : (sign :: (path ++ (arguments ++ ts))).reverse ++ previous
        = ts.reverse ++ (arguments.reverse ++ (path.reverse ++ (sign :: previous))) := by simp
    rw [flat]
    apply ih
    rcases isArguments with rfl | isArguments
    · obtain ⟨init, last, rfl, is⟩ := isPath_last isPath
      have kind : last.kind = .identifier := of_decide_eq_true is
      simp [isDot, isSeparator, kind]
    · obtain ⟨opening, inner, closing, rfl, -, closes, -⟩ := isArguments.parts
      have other : closing.isSeparator "." = false := eq_of_isSeparator closes (by decide)
      simpa [isDot] using other

end Item

namespace TypeSyntax

open Item

variable {d : TypeSyntax}

theorem IsFormed.sign_apart (formed : d.IsFormed) : ∀ t ∈ d.sign,
    t.opensBrace = false ∧ t.closesBrace = false ∧ t.opensParen = false ∧
      t.closesParen = false ∧ t.isSemicolon = false ∧ ∀ previous, t.opensType previous = false := by
  rcases formed.sign with none | ⟨t, one, kind⟩
  · simp [none]
  · rw [one, List.forall_mem_singleton]
    exact atSign_apart kind

theorem IsFormed.isDot_sign (formed : d.IsFormed) (previous : List Token)
    (start : isDot previous.head? = false) :
    isDot (d.sign.reverse ++ (d.marks.reverse ++ previous)).head? = false := by
  have marks := isDot_of_isMarks formed.marks previous start
  rcases formed.sign with none | ⟨t, one, kind⟩
  · rwa [none]
  · simp [one, isDot, isSeparator, kind]

theorem opensType_of_isDot {t : Token} (opens : t.opensType none = true) {previous : Option Token}
    (noDot : isDot previous = false) : t.opensType previous = true := by
  simp only [opensType, Option.map_none, Option.getD_none, Bool.not_false, Bool.and_true,
    Bool.and_eq_true] at opens
  rw [isDot] at noDot
  simpa [opensType, opens.1, noDot] using opens.2

theorem keyword_apart {t : Token} (opens : t.opensType none = true) :
    t.opensBrace = false ∧ t.closesBrace = false ∧ t.opensParen = false ∧
      t.closesParen = false ∧ t.isSemicolon = false := by
  have other : t.kind ≠ .separator := by
    intro kind
    simp [opensType, kind, Kind.isKeyword] at opens
  exact ⟨isSeparator_eq_false other, isSeparator_eq_false other, isSeparator_eq_false other,
    isSeparator_eq_false other, isSeparator_eq_false other⟩

theorem IsFormed.isClosed (formed : d.IsFormed) : Item.IsClosed d.tokens := by
  have marks := Passes.of_isMarks formed.marks {} rfl rfl
  have sign := passes_quiet d.sign (fun t mem => by
    obtain ⟨opens, closes, -, -, mark, -⟩ := formed.sign_apart t mem
    exact ⟨opens, closes, mark⟩) ⟨d.marks.reverse ++ [], 0, false⟩
    (.inr fun t mem => (formed.sign_apart t mem).2.2.2.2.2)
  obtain ⟨opens, closes, -, -, mark⟩ := keyword_apart formed.keyword
  have name : d.name.kind ≠ .separator := by
    simp [of_decide_eq_true formed.name]
  have opening : d.opening.opensBrace = true := formed.opening
  have closing : d.closing.opensBrace = false := eq_of_isSeparator formed.closing (by decide)
  rw [Item.IsClosed, tokens, marks.endsWithLast, sign.endsWithLast, endsWithLast,
    take_quiet _ opens closes mark]
  simp only [opensType_of_isDot formed.keyword (formed.isDot_sign [] rfl), beq_self_eq_true,
    Bool.and_true, Bool.or_true]
  have rest := passes_quiet (d.name :: d.tail) (List.forall_mem_cons.2
    ⟨⟨isSeparator_eq_false name, isSeparator_eq_false name, isSeparator_eq_false name⟩,
      formed.tail⟩) ⟨d.keyword :: (d.sign.reverse ++ (d.marks.reverse ++ [])), 0, true⟩ (.inl rfl)
  rw [← List.cons_append]
  refine (rest.endsWithLast _).trans ?_
  rw [endsWithLast]
  simp only [Progress.take, opening, if_true]
  rw [(passes_inner formed.body _ rfl).endsWithLast, endsWithLast]
  simp [Progress.take, closing, formed.closing]

theorem IsSound.isClosed (sound : d.IsSound) : Item.IsClosed d.tokens :=
  sound.isFormed.isClosed

end TypeSyntax

namespace Item

theorem isClosed_of_isSemicolon {xs : List Token} {mark : Token}
    (quiet : ∀ t ∈ xs, t.opensBrace = false ∧ t.closesBrace = false ∧ t.isSemicolon = false ∧
      ∀ previous, t.opensType previous = false) (isMark : mark.isSemicolon = true) :
    IsClosed (xs ++ [mark]) := by
  have front := passes_quiet xs (fun t mem => ⟨(quiet t mem).1, (quiet t mem).2.1,
    (quiet t mem).2.2.1⟩) {} (.inr fun t mem => (quiet t mem).2.2.2)
  rw [IsClosed, front.endsWithLast, endsWithLast]
  have opens : mark.opensBrace = false := eq_of_isSeparator isMark (by decide)
  have closes : mark.closesBrace = false := eq_of_isSeparator isMark (by decide)
  simp [Progress.take, opens, closes, isMark]

theorem keyword_quiet {t : Token} {value : Text} (is : t.isKeyword value = true)
    (apart : value ∉ typeKeywords) : t.opensBrace = false ∧ t.closesBrace = false ∧
      t.isSemicolon = false ∧ ∀ previous, t.opensType previous = false := by
  have is := isKeyword_iff.1 is
  have other : t.kind ≠ .separator := by
    intro kind
    simp [kind, Kind.isKeyword] at is
  exact ⟨isSeparator_eq_false other, isSeparator_eq_false other, isSeparator_eq_false other,
    opensType_of_notMem (is.2 ▸ apart)⟩

theorem path_quiet {ts : List Token} (path : isPath ts = true) : ∀ t ∈ ts,
    t.opensBrace = false ∧ t.closesBrace = false ∧ t.isSemicolon = false ∧
      ∀ previous, t.opensType previous = false := fun t mem =>
  have name := isPlainName_of_isPath path t mem
  ⟨name.opensBrace, name.closesBrace, name.isSemicolon, name.opensType⟩

/-- A package declaration has a semicolon at its end alone, and no type keyword. -/
theorem IsPackage.exists_quiet {item : Item} (package : item.IsPackage) :
    ∃ xs mark, item = xs ++ [mark] ∧ mark.isSemicolon = true ∧ ∀ t ∈ xs, t.opensBrace = false ∧
      t.closesBrace = false ∧ t.isSemicolon = false ∧ ∀ previous, t.opensType previous = false := by
  obtain ⟨keyword, path, mark, rfl, isKeyword, isPath, isMark⟩ := package
  exact ⟨keyword :: path, mark, rfl, isMark, List.forall_mem_cons.2
    ⟨keyword_quiet isKeyword (by decide), path_quiet isPath⟩⟩

theorem IsImport.exists_quiet {item : Item} (import_ : item.IsImport) :
    ∃ xs mark, item = xs ++ [mark] ∧ mark.isSemicolon = true ∧ ∀ t ∈ xs, t.opensBrace = false ∧
      t.closesBrace = false ∧ t.isSemicolon = false ∧ ∀ previous, t.opensType previous = false := by
  obtain ⟨keyword, scope, path, wildcard, mark, rfl, isKeyword, isScope, isPath, isWildcard,
    isMark⟩ := import_
  have scopeQuiet : ∀ t ∈ scope, t.opensBrace = false ∧ t.closesBrace = false ∧
      t.isSemicolon = false ∧ ∀ previous, t.opensType previous = false := by
    rcases isScope with rfl | ⟨t, rfl, kind, value⟩
    · simp
    · rw [List.forall_mem_singleton]
      obtain ⟨opens, closes, -, -, mark, none⟩ :=
        isModifier_apart kind (by rw [value]; decide)
      exact ⟨opens, closes, mark, none⟩
  have wildcardQuiet : ∀ t ∈ wildcard, t.opensBrace = false ∧ t.closesBrace = false ∧
      t.isSemicolon = false ∧ ∀ previous, t.opensType previous = false := by
    rcases isWildcard with rfl | ⟨dot, star, rfl, isDot, kind, value⟩
    · simp
    · have dotKind := (isSeparator_iff.1 isDot).1
      have other : star.kind ≠ .separator := by simp [kind]
      rw [List.forall_mem_cons, List.forall_mem_singleton]
      exact ⟨⟨eq_of_isSeparator isDot (by decide), eq_of_isSeparator isDot (by decide),
          eq_of_isSeparator isDot (by decide),
          opensType_of_not_isKeyword (by rw [dotKind]; rfl)⟩,
        isSeparator_eq_false other, isSeparator_eq_false other, isSeparator_eq_false other,
          opensType_of_not_isKeyword (by rw [kind]; rfl)⟩
  refine ⟨keyword :: (scope ++ (path ++ wildcard)), mark, by simp, isMark, ?_⟩
  rw [List.forall_mem_cons]
  refine ⟨keyword_quiet isKeyword (by decide), fun t mem => ?_⟩
  rw [List.mem_append, List.mem_append] at mem
  rcases mem with mem | mem | mem
  · exact scopeQuiet t mem
  · exact path_quiet isPath t mem
  · exact wildcardQuiet t mem

theorem IsDeclaration.isClosed {item : Item} (declaration : item.IsDeclaration) :
    item.IsClosed := by
  rcases declaration with package | import_ | ⟨d, sound, rfl⟩
  · obtain ⟨xs, mark, rfl, isMark, quiet⟩ := package.exists_quiet
    exact isClosed_of_isSemicolon quiet isMark
  · obtain ⟨xs, mark, rfl, isMark, quiet⟩ := import_.exists_quiet
    exact isClosed_of_isSemicolon quiet isMark
  · exact sound.isClosed

end Item

end JavaUnits
