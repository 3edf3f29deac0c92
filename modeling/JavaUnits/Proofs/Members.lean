import JavaUnits.Proofs.Forms

/-!
Members of types by their forms, and which types are found to declare a main method. A body is read
one member after another. A member that ends at its semicolon or with its block leaves nothing
behind for the next, and nothing in a block is read as a member. Of a method, the modifiers count
that stand behind the last annotation with braces.
-/

namespace JavaUnits

open Token Text CompilationUnit

/-! ## Tokens in which no method is found -/

namespace Token

/-- Whether every brace that is opened is closed, with `depth` open before, and outside braces all
tokens are such as `asked` and `void` stands in class literals alone. -/
def isCalm (asked : Token → Bool) (depth : Nat) : List Token → Bool
  | [] => depth == 0
  | t :: ts =>
    if t.opensBrace then isCalm asked (depth + 1) ts
    else if t.closesBrace then depth != 0 && isCalm asked (depth - 1) ts
    else (depth != 0 || asked t && (!t.isKeyword "void" || isDot ts.head?)) && isCalm asked depth ts

/-- Neither a modifier nor a semicolon. -/
def isQuiet (t : Token) : Bool :=
  !t.isModifier && !t.isSemicolon

def holdsBrace (ts : List Token) : Bool :=
  ts.any opensBrace

variable {asked : Token → Bool} {n : Nat} {t : Token} {ts xs ys : List Token}

theorem isCalm_append (front : isCalm asked n xs = true) (back : isCalm asked 0 ys = true) :
    isCalm asked n (xs ++ ys) = true := by
  induction xs generalizing n with
  | nil =>
    rw [isCalm, beq_iff_eq] at front
    rwa [front]
  | cons t xs ih =>
    rw [isCalm] at front
    rw [List.cons_append, isCalm]
    split at front
    · rename_i opens
      rw [if_pos opens]
      exact ih front
    rename_i opens
    rw [if_neg opens]
    split at front
    · rename_i closes
      rw [Bool.and_eq_true] at front
      rw [if_pos closes, front.1, ih front.2]
      rfl
    rename_i closes
    rw [Bool.and_eq_true] at front
    rw [if_neg closes, ih front.2, Bool.and_true]
    cases xs with
    | cons => exact front.1
    | nil =>
      -- A `void` at the end of `xs` stands in no class literal.
      have noDot : isDot (none : Option Token) = false := rfl
      simp only [List.head?_nil, noDot, Bool.or_false, Bool.or_eq_true, Bool.and_eq_true] at front
      simp only [Bool.or_eq_true, Bool.and_eq_true]
      exact front.1.imp id fun h => ⟨h.1, .inl h.2⟩

theorem isCalm_of_asked {other : Token → Bool} (calm : isCalm asked n ts = true)
    (weaker : ∀ t, asked t = true → other t = true) : isCalm other n ts = true := by
  induction ts generalizing n with
  | nil => exact calm
  | cons t ts ih =>
    rw [isCalm] at calm ⊢
    split at calm
    · rename_i opens
      rw [if_pos opens]
      exact ih calm
    rename_i opens
    rw [if_neg opens]
    split at calm
    · rename_i closes
      rw [Bool.and_eq_true] at calm
      rw [if_pos closes, calm.1, ih calm.2]
      rfl
    rename_i closes
    rw [Bool.and_eq_true] at calm
    rw [if_neg closes, ih calm.2, Bool.and_true]
    simp only [Bool.or_eq_true, Bool.and_eq_true] at calm ⊢
    exact calm.1.imp id fun h => ⟨weaker t h.1, h.2⟩

theorem isCalm_of_forall (plain : ∀ t ∈ ts, t.opensBrace = false ∧ t.closesBrace = false ∧
    t.isKeyword "void" = false ∧ asked t = true) : isCalm asked 0 ts = true := by
  induction ts with
  | nil => rfl
  | cons t ts ih =>
    rw [List.forall_mem_cons] at plain
    obtain ⟨⟨opens, closes, noVoid, is⟩, plain⟩ := plain
    rw [isCalm, opens, closes, noVoid, is, ih plain]
    rfl

end Token

/-! ## The modifiers seen so far -/

namespace Header

/-- The modifiers of the member so far, one token that is no brace later. -/
def noted (depth : Nat) (seen : List Text) (t : Token) : List Text :=
  if t.isSemicolon && depth == 1 then []
  else if t.isModifier && depth == 1 then t.value :: seen
  else seen

/-- The modifiers of the member so far, when `seen` are those before the tokens and the first of
these stands at the `depth`. -/
def seenAfter (depth : Nat) (seen : List Text) : List Token → List Text
  | [] => seen
  | t :: ts =>
    if t.opensBrace then seenAfter (depth + 1) [] ts
    else if t.closesBrace then seenAfter (depth - 1) [] ts
    else seenAfter depth (noted depth seen t) ts

variable {asked : Token → Bool} {n : Nat} {t : Token} {seen : List Text} {ts xs ys : List Token}

theorem isModifier_of_separator (kind : t.kind = .separator) : t.isModifier = false := by
  rw [isModifier, kind]
  rfl

theorem namesMain_of_isDot (dot : isDot ts.head? = true) : namesMain (ts ++ ys) = false := by
  match ts with
  | [] => cases dot
  | [d] =>
    have kind : d.kind = .separator := by
      simp only [isDot, List.head?_cons, Option.map_some, Option.getD_some, isSeparator,
        Bool.and_eq_true] at dot
      exact of_decide_eq_true dot.1
    cases ys <;> simp [namesMain, isIdentifier, kind]
  | d :: e :: ts =>
    have kind : d.kind = .separator := by
      simp only [isDot, List.head?_cons, Option.map_some, Option.getD_some, isSeparator,
        Bool.and_eq_true] at dot
      exact of_decide_eq_true dot.1
    simp [namesMain, isIdentifier, kind]

theorem hasMain_step (depth : Nat) (opens : t.opensBrace = false) (closes : t.closesBrace = false)
    (other : depth ≠ 1 ∨ t.isKeyword "void" = false ∨ namesMain ts = false) :
    hasMain depth seen (t :: ts) = hasMain depth (noted depth seen t) ts := by
  rw [hasMain, opens, closes, if_neg (by simp), if_neg (by simp)]
  by_cases kind : t.kind = .separator
  · have still : noted depth seen t = if t.isSemicolon && depth == 1 then [] else seen := by
      rw [noted, isModifier_of_separator kind, Bool.false_and]
      rfl
    rw [if_pos kind, still]
  have noMark : t.isSemicolon = false := Item.isSeparator_eq_false kind
  rw [if_neg kind]
  by_cases top : depth = 1
  · rw [if_neg (by simp [top])]
    by_cases modifier : t.isModifier = true
    · have more : noted depth seen t = t.value :: seen := by simp [noted, noMark, modifier, top]
      rw [if_pos modifier, more]
    · have same : noted depth seen t = seen := by simp [noted, noMark, modifier]
      have none : (t.isKeyword "void" && namesMain ts) = false := by
        rw [Bool.and_eq_false_iff]
        exact other.resolve_left (absurd top)
      rw [if_neg modifier, none, same]
      rfl
  · have same : noted depth seen t = seen := by simp [noted, top]
    rw [if_pos top, same]

/-- Calm tokens are passed over; of them, only the modifiers seen matter for what follows. -/
theorem hasMain_append (calm : isCalm asked n xs = true) : hasMain (n + 1) seen (xs ++ ys)
    = hasMain 1 (seenAfter (n + 1) seen xs) ys := by
  induction xs generalizing n seen with
  | nil =>
    rw [isCalm, beq_iff_eq] at calm
    rw [calm]
    rfl
  | cons t xs ih =>
    rw [isCalm] at calm
    rw [List.cons_append, seenAfter]
    split at calm
    · rename_i opens
      rw [hasMain, if_pos opens, if_pos opens, ih calm]
    rename_i opens
    rw [if_neg opens]
    split at calm
    · rename_i closes
      rw [Bool.and_eq_true, bne_iff_ne] at calm
      have less : hasMain (n - 1 + 1) [] (xs ++ ys) = _ := ih calm.2
      rw [Nat.sub_add_cancel (by omega)] at less
      rw [hasMain, if_neg opens, if_pos closes, if_pos closes, Nat.add_sub_cancel, less]
    rename_i closes
    rw [Bool.not_eq_true] at opens closes
    rw [Bool.and_eq_true] at calm
    have other : n + 1 ≠ 1 ∨ t.isKeyword "void" = false ∨ namesMain (xs ++ ys) = false := by
      simp only [Bool.or_eq_true, bne_iff_ne, Bool.and_eq_true, Bool.not_eq_true'] at calm
      rcases calm.1 with deep | ⟨-, noVoid | dot⟩
      · exact .inl (by omega)
      · exact .inr (.inl noVoid)
      · exact .inr (.inr (namesMain_of_isDot dot))
    rw [hasMain_step _ opens closes other, ih calm.2, closes, if_neg (by simp)]

theorem seenAfter_append (calm : isCalm asked n xs = true) :
    seenAfter (n + 1) seen (xs ++ ys) = seenAfter 1 (seenAfter (n + 1) seen xs) ys := by
  induction xs generalizing n seen with
  | nil =>
    rw [isCalm, beq_iff_eq] at calm
    rw [calm]
    rfl
  | cons t xs ih =>
    rw [isCalm] at calm
    rw [List.cons_append, seenAfter, seenAfter]
    split at calm
    · rename_i opens
      rw [if_pos opens, if_pos opens, ih calm]
    rename_i opens
    rw [if_neg opens, if_neg opens]
    split at calm
    · rename_i closes
      rw [Bool.and_eq_true, bne_iff_ne] at calm
      have less : seenAfter (n - 1 + 1) [] (xs ++ ys) = _ := ih calm.2
      rw [Nat.sub_add_cancel (by omega)] at less
      rw [if_pos closes, if_pos closes, Nat.add_sub_cancel, less]
    rename_i closes
    rw [Bool.and_eq_true] at calm
    rw [if_neg closes, if_neg closes]
    exact ih calm.2

/-- Quiet tokens bring no modifiers, and their braces make those before them forgotten. -/
theorem seenAfter_quiet (calm : isCalm isQuiet n xs = true) :
    seenAfter (n + 1) seen xs = if n == 0 && !holdsBrace xs then seen else [] := by
  induction xs generalizing n seen with
  | nil =>
    rw [isCalm] at calm
    rw [calm]
    rfl
  | cons t xs ih =>
    rw [isCalm] at calm
    rw [seenAfter, holdsBrace, List.any_cons, ← holdsBrace]
    split at calm
    · rename_i opens
      rw [if_pos opens, opens, ih calm]
      simp
    rename_i opens
    rw [if_neg opens, Bool.not_eq_true] at *
    rw [opens, Bool.false_or]
    split at calm
    · rename_i closes
      rw [Bool.and_eq_true, bne_iff_ne] at calm
      have less : seenAfter (n - 1 + 1) [] xs = _ := ih calm.2
      rw [Nat.sub_add_cancel (by omega), ite_self] at less
      rw [if_pos closes, Nat.add_sub_cancel, less, if_neg (by simp [calm.1])]
    rename_i closes
    rw [if_neg closes]
    rw [Bool.and_eq_true] at calm
    have quiet : noted (n + 1) seen t = seen := by
      simp only [Bool.or_eq_true, bne_iff_ne, Bool.and_eq_true, isQuiet, Bool.not_eq_true'] at calm
      rcases calm.1 with deep | ⟨⟨noModifier, noMark⟩, -⟩
      · simp [noted, deep]
      · simp [noted, noModifier, noMark]
    rw [quiet]
    exact ih calm.2

end Header

/-! ## Annotations -/

/-- Whether the arguments are an expression: outside braces neither modifiers nor semicolons stand
among them. -/
@[mk_iff] structure Arguments.IsExpression (a : Arguments) : Prop where
  opening : a.opening.opensParen = true
  closing : a.closing.closesParen = true
  inner : isCalm Token.isQuiet 0 a.inner = true

instance (a : Arguments) : Decidable a.IsExpression :=
  decidable_of_iff _ (a.isExpression_iff).symm

namespace Mark

variable {m : Mark} {ms : List Mark} {seen : List Text}

def holdsBrace (m : Mark) : Bool :=
  Token.holdsBrace m.tokens

/-- The modifiers behind the last annotation with braces, the last of them first. -/
def known (ms : List Mark) : List Token :=
  (ms.reverse.takeWhile fun m => !m.holdsBrace).filterMap word?

theorem known_concat (ms : List Mark) (m : Mark) :
    known (ms ++ [m]) = if m.holdsBrace then [] else m.word?.toList ++ known ms := by
  rw [known, known, List.reverse_append, List.reverse_singleton, List.singleton_append]
  cases holds : m.holdsBrace with
  | true => rw [List.takeWhile_cons_of_neg (by simp [holds])]; rfl
  | false =>
    rw [List.takeWhile_cons_of_pos (by simp [holds]), List.filterMap_cons, if_neg (by simp)]
    cases m.word? <;> rfl

theorem known_subset (ms : List Mark) : known ms ⊆ ms.filterMap word? := by
  intro t mem
  obtain ⟨m, inside, isWord⟩ := List.mem_filterMap.1 mem
  have written := List.mem_reverse.1 ((List.takeWhile_sublist _).subset inside)
  exact List.mem_filterMap.2 ⟨m, written, isWord⟩

theorem mem_known (none : ∀ m ∈ ms, m.holdsBrace = false) {t : Token}
    (mem : t ∈ ms.filterMap word?) : t ∈ known ms := by
  have all : (ms.reverse.takeWhile fun m => !m.holdsBrace) = ms.reverse := by
    rw [List.takeWhile_eq_self_iff]
    intro m mem
    rw [none m (List.mem_reverse.1 mem)]
    rfl
  rw [known, all, List.filterMap_reverse, List.mem_reverse]
  exact mem

theorem isCalm_annotated {sign : Token} {path : List Token} {arguments : Option Arguments}
    (formed : (annotated sign path arguments).IsFormed Arguments.IsExpression) :
    isCalm Token.isQuiet 0 (annotated sign path arguments).tokens = true := by
  obtain ⟨kind, isPath, quiet⟩ := formed
  have bracket {t : Token} {value : Text} (is : t.isSeparator value = true)
      (apart : value ≠ Text.ofString "\x7b" ∧ value ≠ Text.ofString "\x7d" ∧
        value ≠ Text.ofString ";") : t.opensBrace = false ∧ t.closesBrace = false ∧
          t.isKeyword "void" = false ∧ t.isQuiet = true := by
    have kind : t.kind = .separator := of_decide_eq_true (Bool.and_eq_true_iff.1 is).1
    have noMark : t.isSemicolon = false := eq_of_isSeparator is apart.2.2
    refine ⟨eq_of_isSeparator is apart.1, eq_of_isSeparator is apart.2.1, ?_, ?_⟩
    · simp [isKeyword, kind, Kind.isKeyword]
    · simp [Token.isQuiet, isModifier, kind, noMark]
  have name : isCalm Token.isQuiet 0 (sign :: path) = true := by
    refine isCalm_of_forall (List.forall_mem_cons.2 ⟨?_, fun t mem => ?_⟩)
    · obtain ⟨opens, closes, -, -, mark, -⟩ := atSign_apart kind
      refine ⟨opens, closes, ?_, ?_⟩
      · simp [isKeyword, kind, Kind.isKeyword]
      · simp [Token.isQuiet, isModifier, kind, mark]
    · rcases isPath_mem isPath t mem with is | is
      · have plain := isPlainName_of_isPath isPath t mem
        have kind : t.kind = .identifier := of_decide_eq_true is
        refine ⟨plain.opensBrace, plain.closesBrace, ?_, ?_⟩
        · simp [isKeyword, kind, Kind.isKeyword]
        · simp [Token.isQuiet, plain.isModifier, plain.isSemicolon]
      · exact bracket is (by decide)
  rw [tokens, ← List.cons_append]
  refine isCalm_append name ?_
  cases arguments with
  | none => rfl
  | some a =>
    obtain ⟨opening, closing, inner⟩ := quiet a rfl
    have first : isCalm Token.isQuiet 0 [a.opening] = true :=
      isCalm_of_forall (by simpa using bracket opening (by decide))
    have last : isCalm Token.isQuiet 0 [a.closing] = true :=
      isCalm_of_forall (by simpa using bracket closing (by decide))
    exact isCalm_append first (isCalm_append inner last)

theorem IsFormed.isCalm (formed : m.IsFormed Arguments.IsExpression) :
    isCalm (fun _ => true) 0 m.tokens = true := by
  cases m with
  | modifier word =>
    obtain ⟨kind, mem⟩ := formed
    obtain ⟨opens, closes, -⟩ := isModifier_apart kind mem
    refine isCalm_of_forall (List.forall_mem_singleton.2 ⟨opens, closes, ?_, rfl⟩)
    have apart : Text.ofString "void" ∉ modifiers := by decide
    have other : word.value ≠ Text.ofString "void" := fun same => apart (same ▸ mem)
    simp [isKeyword, other]
  | annotated sign path arguments =>
    exact isCalm_of_asked (isCalm_annotated formed) fun _ _ => rfl

theorem IsFormed.seenAfter (formed : m.IsFormed Arguments.IsExpression) :
    Header.seenAfter 1 seen m.tokens
      = if m.holdsBrace then [] else m.word?.toList.map Token.value ++ seen := by
  cases m with
  | modifier word =>
    obtain ⟨kind, mem⟩ := formed
    obtain ⟨opens, closes, -, -, mark, -⟩ := isModifier_apart kind mem
    have still : (modifier word).holdsBrace = false := by
      simp [holdsBrace, Token.holdsBrace, tokens, opens]
    rw [still, tokens, Header.seenAfter, opens, closes, Header.noted, mark]
    simp [Header.seenAfter, isModifier, kind, word?]
  | annotated sign path arguments =>
    rw [Header.seenAfter_quiet (n := 0) (isCalm_annotated formed), holdsBrace]
    cases Token.holdsBrace (annotated sign path arguments).tokens <;> rfl

theorem isCalm_flatMap (formed : ∀ m ∈ ms, m.IsFormed Arguments.IsExpression) :
    Token.isCalm (fun _ => true) 0 (ms.flatMap tokens) = true := by
  induction ms with
  | nil => rfl
  | cons m ms ih =>
    rw [List.forall_mem_cons] at formed
    rw [List.flatMap_cons]
    exact isCalm_append formed.1.isCalm (ih formed.2)

theorem seenAfter_flatMap (formed : ∀ m ∈ ms, m.IsFormed Arguments.IsExpression) :
    Header.seenAfter 1 [] (ms.flatMap tokens) = (known ms).map Token.value := by
  induction ms using List.reverseRecOn with
  | nil => rfl
  | append_singleton ms m ih =>
    rw [List.forall_mem_append, List.forall_mem_singleton] at formed
    rw [List.flatMap_append, List.flatMap_singleton,
      Header.seenAfter_append (n := 0) (isCalm_flatMap formed.1), ih formed.1, formed.2.seenAfter,
      known_concat]
    cases m.holdsBrace with
    | true => rfl
    | false => exact List.map_append.symm

end Mark

/-! ## Members -/

inductive Ending where
  | mark (t : Token)
  | block (opening : Token) (body : List Token) (closing : Token)
  deriving DecidableEq

namespace Ending

def tokens : Ending → List Token
  | mark t => [t]
  | block opening body closing => opening :: (body ++ [closing])

def IsFormed : Ending → Prop
  | mark t => t.isSemicolon = true
  | block opening body closing => opening.opensBrace = true ∧
    balances opensBrace closesBrace 0 body = true ∧ closing.closesBrace = true

instance (e : Ending) : Decidable e.IsFormed :=
  match e with
  | mark _ => inferInstanceAs (Decidable (_ = _))
  | block _ _ _ => inferInstanceAs (Decidable (_ ∧ _ ∧ _))

variable {e : Ending} {seen : List Text}

theorem isCalm_inner {asked : Token → Bool} {n : Nat} {body : List Token} {closing : Token}
    (balanced : balances opensBrace closesBrace n body = true)
    (closes : closing.closesBrace = true) : isCalm asked (n + 1) (body ++ [closing]) = true := by
  induction body generalizing n with
  | nil =>
    rw [balances, beq_iff_eq] at balanced
    have other : closing.opensBrace = false := eq_of_isSeparator closes (by decide)
    rw [balanced, List.nil_append, isCalm, other, closes]
    rfl
  | cons t body ih =>
    rw [balances] at balanced
    rw [List.cons_append, isCalm]
    split at balanced
    · rename_i opens
      rw [if_pos opens]
      exact ih balanced
    rename_i opens
    rw [if_neg opens]
    split at balanced
    · rename_i closes
      rw [Bool.and_eq_true, bne_iff_ne] at balanced
      have less := ih balanced.2
      rw [Nat.sub_add_cancel (by omega)] at less
      rw [if_pos closes, Nat.add_sub_cancel, less]
      rfl
    · rename_i closes
      rw [if_neg closes, ih balanced]
      rfl

theorem IsFormed.isCalm (formed : e.IsFormed) : isCalm (fun _ => true) 0 e.tokens = true := by
  cases e with
  | mark t =>
    have kind : t.kind = .separator := of_decide_eq_true (Bool.and_eq_true_iff.1 formed).1
    refine isCalm_of_forall (List.forall_mem_singleton.2 ⟨eq_of_isSeparator formed (by decide),
      eq_of_isSeparator formed (by decide), ?_, rfl⟩)
    simp [isKeyword, kind, Kind.isKeyword]
  | block opening body closing =>
    obtain ⟨opens, balanced, closes⟩ := formed
    rw [tokens, Token.isCalm, if_pos opens]
    exact isCalm_inner balanced closes

/-- No modifier is known behind the end of a member. -/
theorem IsFormed.seenAfter (formed : e.IsFormed) : Header.seenAfter 1 seen e.tokens = [] := by
  cases e with
  | mark t =>
    have opens : t.opensBrace = false := eq_of_isSeparator formed (by decide)
    have closes : t.closesBrace = false := eq_of_isSeparator formed (by decide)
    have isMark : t.isSemicolon = true := formed
    rw [tokens, Header.seenAfter, opens, closes, Header.seenAfter, Header.noted, isMark]
    rfl
  | block opening body closing =>
    obtain ⟨opens, balanced, closes⟩ := formed
    have inner : Token.isCalm Token.isQuiet 1 (body ++ [closing]) = true :=
      isCalm_inner balanced closes
    rw [tokens, Header.seenAfter, if_pos opens, Header.seenAfter_quiet inner]
    rfl

end Ending

/-- A method by its header: modifiers and annotations, type parameters, the result, the name, the
parenthesis, what is left of the header, and the end. -/
structure Method where
  marks : List Mark
  typeParameters : List Token
  result : List Token
  name : Token
  paren : Token
  rest : List Token
  ending : Ending
  deriving DecidableEq

namespace Method

def tokens (m : Method) : List Token :=
  (m.marks.flatMap Mark.tokens ++ m.typeParameters)
    ++ (m.result ++ (m.name :: m.paren :: m.rest ++ m.ending.tokens))

def isVoid (m : Method) : Bool :=
  match m.result with
  | [t] => t.kind = .keyword && t.value == Text.ofString "void"
  | _ => false

@[mk_iff] structure IsFormed (m : Method) : Prop where
  marks : ∀ mark ∈ m.marks, mark.IsFormed Arguments.IsExpression
  typeParameters : isCalm Token.isQuiet 0 m.typeParameters = true
  result : m.isVoid = true ∨ isCalm (fun _ => true) 0 m.result = true
  name : m.name.isIdentifier = true
  paren : m.paren.opensParen = true
  rest : isCalm (fun _ => true) 0 m.rest = true
  ending : m.ending.IsFormed

instance (m : Method) : Decidable m.IsFormed :=
  decidable_of_iff _ (isFormed_iff m).symm

/-- The modifiers that are written, those in annotations left out. -/
def words (m : Method) : List Text :=
  (m.marks.filterMap Mark.word?).map Token.value

/-- The modifiers behind the last braces before the result. -/
def known (m : Method) : List Text :=
  if holdsBrace m.typeParameters then [] else (Mark.known m.marks).map Token.value

/-- Whether the method is public and static, has no result and is called `main`. -/
def IsMain (m : Method) : Prop :=
  m.isVoid = true ∧ m.name.value = Text.ofString "main" ∧ Text.ofString "public" ∈ m.words ∧
    Text.ofString "static" ∈ m.words

/-- Whether no braces stand between `public` or `static` and the result. -/
def IsSeen (m : Method) : Prop :=
  Text.ofString "public" ∈ m.known ∧ Text.ofString "static" ∈ m.known

instance (m : Method) : Decidable m.IsMain :=
  inferInstanceAs (Decidable (_ ∧ _ ∧ _ ∧ _))

instance (m : Method) : Decidable m.IsSeen :=
  inferInstanceAs (Decidable (_ ∧ _))

/-- Whether braces stand before the result. -/
def isBraced (m : Method) : Bool :=
  m.marks.any Mark.holdsBrace || holdsBrace m.typeParameters

variable {m : Method} {ys : List Token}

theorem known_subset (m : Method) : m.known ⊆ m.words := by
  rw [known]
  split
  · exact List.nil_subset _
  · exact List.map_subset _ (Mark.known_subset m.marks)

theorem IsMain.isSeen (main : m.IsMain) (plain : m.isBraced = false) : m.IsSeen := by
  obtain ⟨marks, parameters⟩ := Bool.or_eq_false_iff.1 plain
  have none : ∀ mark ∈ m.marks, mark.holdsBrace = false := by
    simpa using marks
  have all {word : Text} (mem : word ∈ m.words) : word ∈ m.known := by
    obtain ⟨t, isWord, rfl⟩ := List.mem_map.1 mem
    rw [known, parameters]
    exact List.mem_map_of_mem (Mark.mem_known none isWord)
  exact ⟨all main.2.2.1, all main.2.2.2⟩

theorem IsFormed.seenAfter_head (formed : m.IsFormed) :
    Header.seenAfter 1 [] (m.marks.flatMap Mark.tokens ++ m.typeParameters) = m.known := by
  rw [Header.seenAfter_append (n := 0) (Mark.isCalm_flatMap formed.marks),
    Mark.seenAfter_flatMap formed.marks, Header.seenAfter_quiet (n := 0) formed.typeParameters,
    known]
  cases holdsBrace m.typeParameters <;> rfl

theorem IsFormed.isCalm_name (formed : m.IsFormed) :
    isCalm (fun _ => true) 0 (m.name :: m.paren :: m.rest) = true := by
  have name : m.name.kind = .identifier := of_decide_eq_true formed.name
  have isParen : m.paren.isSeparator "(" = true := formed.paren
  have paren : m.paren.kind = .separator := of_decide_eq_true (Bool.and_eq_true_iff.1 isParen).1
  have other : m.name.kind ≠ .separator := by simp [name]
  have front : isCalm (fun _ => true) 0 [m.name, m.paren] = true := by
    refine isCalm_of_forall (List.forall_mem_cons.2 ⟨?_, List.forall_mem_singleton.2 ?_⟩)
    · refine ⟨Item.isSeparator_eq_false other, Item.isSeparator_eq_false other, ?_, rfl⟩
      simp [isKeyword, name, Kind.isKeyword]
    · refine ⟨eq_of_isSeparator isParen (by decide), eq_of_isSeparator isParen (by decide), ?_, rfl⟩
      simp [isKeyword, paren, Kind.isKeyword]
  exact isCalm_append front formed.rest

/-- What follows a result is passed over, and nothing of it counts for the next member. -/
theorem IsFormed.hasMain_behind (formed : m.IsFormed) {front : List Token}
    (calm : isCalm (fun _ => true) 0 front = true) (seen : List Text) (ys : List Token) :
    Header.hasMain 1 seen (front ++ (m.ending.tokens ++ ys)) = Header.hasMain 1 [] ys := by
  rw [Header.hasMain_append (n := 0) calm, Header.hasMain_append (n := 0) formed.ending.isCalm,
    formed.ending.seenAfter]

/-- A method is found if it is a main method whose modifiers are seen. -/
theorem IsFormed.hasMain_tokens (formed : m.IsFormed) : Header.hasMain 1 [] (m.tokens ++ ys)
    = (decide (m.IsMain ∧ m.IsSeen) || Header.hasMain 1 [] ys) := by
  have head : isCalm (fun _ => true) 0 (m.marks.flatMap Mark.tokens ++ m.typeParameters) = true :=
    isCalm_append (Mark.isCalm_flatMap formed.marks)
      (isCalm_of_asked formed.typeParameters fun _ _ => rfl)
  rw [tokens, List.append_assoc, Header.hasMain_append (n := 0) head, formed.seenAfter_head]
  by_cases isVoid : m.isVoid = true
  case neg =>
    -- Such a method is passed over like any other member.
    have other : ¬ m.IsMain := fun main => isVoid main.1
    have calm := isCalm_append (formed.result.resolve_left isVoid) formed.isCalm_name
    have behind := formed.hasMain_behind calm m.known ys
    rw [List.append_assoc] at behind
    simpa [other] using behind
  case pos =>
    obtain ⟨t, result, kind, value⟩ : ∃ t, m.result = [t] ∧ t.kind = .keyword ∧
        t.value = Text.ofString "void" := by
      have is := isVoid
      rw [Method.isVoid] at is
      split at is
      · rename_i t one
        simp only [Bool.and_eq_true, decide_eq_true_eq, beq_iff_eq] at is
        exact ⟨t, one, is⟩
      · cases is
    have apart : t.kind ≠ .separator := by simp [kind]
    have opens : t.opensBrace = false := Item.isSeparator_eq_false apart
    have closes : t.closesBrace = false := Item.isSeparator_eq_false apart
    have noModifier : t.isModifier = false := by simp [isModifier, kind]
    have word : t.isKeyword "void" = true := by simp [isKeyword, kind, Kind.isKeyword, value]
    have names : Header.namesMain (m.name :: m.paren :: m.rest ++ m.ending.tokens ++ ys)
        = (m.name.value == Text.ofString "main") := by
      simp [Header.namesMain, formed.name, formed.paren]
    have behind := formed.hasMain_behind formed.isCalm_name m.known ys
    rw [← List.append_assoc] at behind
    have found : (m.IsMain ∧ m.IsSeen) ↔ (m.name.value == Text.ofString "main"
        && m.known.contains (Text.ofString "public") && m.known.contains (Text.ofString "static"))
          = true := by
      simp only [IsMain, IsSeen, isVoid, Bool.and_eq_true, beq_iff_eq, List.contains_iff_mem]
      constructor
      · rintro ⟨⟨-, name, -⟩, isPublic, isStatic⟩
        exact ⟨⟨name, isPublic⟩, isStatic⟩
      · rintro ⟨⟨name, isPublic⟩, isStatic⟩
        exact ⟨⟨trivial, name, m.known_subset isPublic, m.known_subset isStatic⟩, isPublic,
          isStatic⟩
    rw [result, List.append_assoc, List.singleton_append, Header.hasMain, opens, closes,
      if_neg (by simp), if_neg (by simp), if_neg apart, if_neg (by simp), noModifier,
      if_neg (by simp), word, names, Bool.true_and, behind]
    by_cases main : m.IsMain ∧ m.IsSeen
    · rw [found.1 main, decide_eq_true main]
      rfl
    · rw [Bool.eq_false_iff.2 (mt found.2 main), decide_eq_false main]
      rfl

end Method

/-- A member of a type: a method, or any other member, such as a field, a constructor, an
initializer, a nested type, the constants of an enumeration, or a semicolon alone. -/
inductive Member where
  | other (front : List Token) (ending : Ending)
  | method (m : Method)
  deriving DecidableEq

namespace Member

def tokens : Member → List Token
  | other front ending => front ++ ending.tokens
  | method m => m.tokens

def IsFormed : Member → Prop
  | other front ending => isCalm (fun _ => true) 0 front = true ∧ ending.IsFormed
  | method m => m.IsFormed

instance (m : Member) : Decidable m.IsFormed :=
  match m with
  | other _ _ => inferInstanceAs (Decidable (_ ∧ _))
  | method m => inferInstanceAs (Decidable m.IsFormed)

def isFound : Member → Bool
  | other _ _ => false
  | method m => decide (m.IsMain ∧ m.IsSeen)

variable {m : Member} {ms : List Member} {ys : List Token}

/-- Members do not bear on each other. -/
theorem IsFormed.hasMain_tokens (formed : m.IsFormed) :
    Header.hasMain 1 [] (m.tokens ++ ys) = (m.isFound || Header.hasMain 1 [] ys) := by
  cases m with
  | method m => exact Method.IsFormed.hasMain_tokens formed
  | other front ending =>
    obtain ⟨calm, isEnding⟩ := formed
    rw [tokens, List.append_assoc, Header.hasMain_append (n := 0) calm,
      Header.hasMain_append (n := 0) isEnding.isCalm, isEnding.seenAfter]
    rfl

theorem hasMain_flatMap (formed : ∀ m ∈ ms, m.IsFormed) :
    Header.hasMain 1 [] (ms.flatMap tokens ++ ys) = (ms.any isFound || Header.hasMain 1 [] ys) := by
  induction ms with
  | nil => rfl
  | cons m ms ih =>
    rw [List.forall_mem_cons] at formed
    rw [List.flatMap_cons, List.append_assoc, formed.1.hasMain_tokens, ih formed.2, List.any_cons,
      Bool.or_assoc]

theorem any_isFound : ms.any isFound = true ↔ ∃ m, method m ∈ ms ∧ m.IsMain ∧ m.IsSeen := by
  rw [List.any_eq_true]
  constructor
  · rintro ⟨_ | m, mem, found⟩
    · cases found
    · exact ⟨m, mem, of_decide_eq_true found⟩
  · rintro ⟨m, mem, main⟩
    exact ⟨method m, mem, decide_eq_true main⟩

end Member

/-! ## Types -/

namespace TypeForm

/-- Whether the body of the type is made of the members, behind which constants of an enumeration
may stand. -/
@[mk_iff] structure HasMembers (d : TypeForm) (ms : List Member) (constants : List Token) :
    Prop where
  formed : d.IsFormed
  body : d.body = ms.flatMap Member.tokens ++ constants
  members : ∀ m ∈ ms, m.IsFormed
  constants : isCalm (fun _ => true) 0 constants = true

instance (d : TypeForm) (ms : List Member) (constants : List Token) :
    Decidable (d.HasMembers ms constants) :=
  decidable_of_iff _ (hasMembers_iff d ms constants).symm

variable {d : TypeForm} {ms : List Member} {constants : List Token}

theorem hasMain_front {xs ys : List Token} (quiet : ∀ t ∈ xs, t.opensBrace = false ∧
    t.closesBrace = false) : Header.hasMain 0 [] (xs ++ ys) = Header.hasMain 0 [] ys := by
  induction xs with
  | nil => rfl
  | cons t xs ih =>
    obtain ⟨⟨opens, closes⟩, quiet⟩ := List.forall_mem_cons.1 quiet
    rw [List.cons_append, Header.hasMain_step 0 opens closes (.inl (by simp)), ← ih quiet]
    congr 1
    simp [Header.noted]

theorem HasMembers.declaresMain (has : d.HasMembers ms constants) :
    d.flat.header.declaresMain = ms.any Member.isFound := by
  obtain ⟨formed, body, members, constants⟩ := has
  obtain ⟨opens, closes, -⟩ := TypeSyntax.keyword_apart formed.keyword
  have name : d.name.kind ≠ .separator := by simp [of_decide_eq_true formed.name]
  have quiet : ∀ t ∈ d.keyword :: d.name :: d.tail,
      t.opensBrace = false ∧ t.closesBrace = false := by
    rw [List.forall_mem_cons, List.forall_mem_cons]
    exact ⟨⟨opens, closes⟩, ⟨Item.isSeparator_eq_false name, Item.isSeparator_eq_false name⟩,
      fun t mem => ⟨(formed.tail t mem).1, (formed.tail t mem).2.1⟩⟩
  have front := @hasMain_front _ (d.opening :: (d.body ++ [d.closing])) quiet
  have last : d.closing.opensBrace = false := eq_of_isSeparator formed.closing (by decide)
  show Header.hasMain 0 []
    (d.keyword :: d.name :: d.tail ++ d.opening :: (d.body ++ [d.closing])) = _
  rw [front, Header.hasMain, if_pos formed.opening, body, List.append_assoc,
    Member.hasMain_flatMap members, Header.hasMain_append (n := 0) constants, Header.hasMain, last,
    formed.closing]
  exact Bool.or_false _

end TypeForm

/-- Whether the item declares a type. -/
def Item.declaresType (item : Item) : Bool :=
  item.header?.isSome

theorem CompilationUnit.pairs_of_parse {s : Text} {u : CompilationUnit} (parsed : parse s = .ok u) :
    List.Forall₂ (fun item t => (Item.header? item).map Header.bare = some t.header.bare)
      (s.items.filter Item.declaresType) u.types := by
  have headers := (outlines_of_parse parsed).headers
  generalize s.items = items at headers ⊢
  have paired : List.Forall₂ (fun item h => (Item.header? item).map Header.bare = some h)
      (items.filter Item.declaresType)
      ((items.filterMap Item.header?).map Header.bare) := by
    clear headers
    induction items with
    | nil => exact .nil
    | cons item items ih =>
      cases header : item.header? with
      | none =>
        rwa [List.filter_cons_of_neg (by simp [Item.declaresType, header]),
          List.filterMap_cons_none header]
      | some h =>
        rw [List.filter_cons_of_pos (by simp [Item.declaresType, header]),
          List.filterMap_cons_some header]
        exact .cons (by rw [header]; rfl) ih
  rw [← headers, List.forall₂_map_right_iff] at paired
  exact paired

/-- A type whose body is made of members declares a main method if one of its methods is one whose
modifiers are seen. If no braces stand before the result of a main method, it is one of its methods
being a main method. -/
theorem CompilationUnit.declaresMain_of_parse {s : Text} {u : CompilationUnit}
    (parsed : parse s = .ok u) :
    List.Forall₂ (fun item t => ∀ (d : TypeForm) (ms : List Member) (constants : List Token),
        item = d.tokens → d.HasMembers ms constants →
        (t.header.declaresMain = true ↔ ∃ m, .method m ∈ ms ∧ m.IsMain ∧ m.IsSeen) ∧
        ((∀ m, .method m ∈ ms → m.IsMain → m.isBraced = false) →
          (t.header.declaresMain = true ↔ ∃ m, .method m ∈ ms ∧ m.IsMain)))
      (s.items.filter Item.declaresType) u.types := by
  refine (pairs_of_parse parsed).imp ?_
  rintro _ t same d ms constants rfl has
  rw [Item.header?, TypeForm.tokens, has.formed.flat.role] at same
  have header : d.flat.header.bare = t.header.bare := Option.some.inj same
  have declares : t.header.declaresMain = ms.any Member.isFound :=
    (congrArg Header.declaresMain header).symm.trans has.declaresMain
  rw [declares, Member.any_isFound]
  refine ⟨Iff.rfl, fun plain => ⟨?_, ?_⟩⟩
  · rintro ⟨m, mem, main, -⟩
    exact ⟨m, mem, main⟩
  · rintro ⟨m, mem, main⟩
    exact ⟨m, mem, main, main.isSeen (plain m mem main)⟩

/-- A class with an initializer, a nested class with a method `main` of its own, a stray semicolon,
and a main method with an annotation between its modifiers. -/
def household : Text :=
  "class A \x7b\n  static \x7b\x7d\n  class B \x7b void main() \x7b\x7d \x7d;\n"
    ++ "  static @X(Y.class) public void main() \x7b\x7d\n\x7d\n"

def householdMain : Method where
  marks := [.modifier ⟨.modifier, "static", ⟨4, 3⟩⟩,
    .annotated ⟨.atSign, "@", ⟨4, 10⟩⟩ [⟨.identifier, "X", ⟨4, 11⟩⟩]
      (some ⟨⟨.separator, "(", ⟨4, 12⟩⟩,
        [⟨.identifier, "Y", ⟨4, 13⟩⟩, ⟨.separator, ".", ⟨4, 14⟩⟩, ⟨.keyword, "class", ⟨4, 15⟩⟩],
        ⟨.separator, ")", ⟨4, 20⟩⟩⟩),
    .modifier ⟨.modifier, "public", ⟨4, 22⟩⟩]
  typeParameters := []
  result := [⟨.keyword, "void", ⟨4, 29⟩⟩]
  name := ⟨.identifier, "main", ⟨4, 34⟩⟩
  paren := ⟨.separator, "(", ⟨4, 38⟩⟩
  rest := [⟨.separator, ")", ⟨4, 39⟩⟩]
  ending := .block ⟨.separator, "\x7b", ⟨4, 41⟩⟩ [] ⟨.separator, "\x7d", ⟨4, 42⟩⟩

def householdMembers : List Member :=
  [.other [⟨.modifier, "static", ⟨2, 3⟩⟩] 
      (.block ⟨.separator, "\x7b", ⟨2, 10⟩⟩ [] ⟨.separator, "\x7d", ⟨2, 11⟩⟩),
    .other [⟨.keyword, "class", ⟨3, 3⟩⟩, ⟨.identifier, "B", ⟨3, 9⟩⟩]
      (.block ⟨.separator, "\x7b", ⟨3, 11⟩⟩
        [⟨.keyword, "void", ⟨3, 13⟩⟩, ⟨.identifier, "main", ⟨3, 18⟩⟩,
          ⟨.separator, "(", ⟨3, 22⟩⟩, ⟨.separator, ")", ⟨3, 23⟩⟩, ⟨.separator, "\x7b", ⟨3, 25⟩⟩,
          ⟨.separator, "\x7d", ⟨3, 26⟩⟩]
        ⟨.separator, "\x7d", ⟨3, 28⟩⟩),
    .other [] (.mark ⟨.separator, ";", ⟨3, 29⟩⟩), .method householdMain]

def householdType : TypeForm where
  marks := []
  sign := none
  keyword := ⟨.keyword, "class", ⟨1, 1⟩⟩
  name := ⟨.identifier, "A", ⟨1, 7⟩⟩
  tail := []
  opening := ⟨.separator, "\x7b", ⟨1, 9⟩⟩
  body := householdMembers.flatMap Member.tokens
  closing := ⟨.separator, "\x7d", ⟨5, 1⟩⟩

theorem CompilationUnit.declaresMain_of_parse_household : ∃ u t, parse household = .ok u ∧
    u.types = [t] ∧ householdType.HasMembers householdMembers [] ∧
    (∀ m, .method m ∈ householdMembers → m.IsMain → m.isBraced = false) ∧
    t.header.declaresMain = true := by
  obtain ⟨items, declares, has⟩ : household.items = [householdType.tokens] ∧
      Item.declaresType householdType.tokens = true ∧
      householdType.HasMembers householdMembers [] := by
    rw [household, ofString_ofList]
    decide +kernel
  have plain : ∀ m, .method m ∈ householdMembers → m.IsMain → m.isBraced = false := by
    intro m mem _
    obtain rfl : m = householdMain := by simpa [householdMembers] using mem
    decide
  obtain ⟨u, parsed⟩ : ∃ u, parse household = .ok u := by
    apply exists_eq_ok
    rw [household, ofString_ofList]
    decide +kernel
  have paired := declaresMain_of_parse parsed
  rw [items, List.filter_cons_of_pos declares, List.filter_nil] at paired
  obtain ⟨t, rest, told, none, types⟩ := List.forall₂_cons_left_iff.1 paired
  obtain rfl := List.forall₂_nil_left_iff.1 none
  refine ⟨u, t, parsed, types, has, plain, ?_⟩
  rw [((told _ _ _ rfl has).2 plain)]
  exact ⟨householdMain, by decide, by decide⟩

/-- A public class whose main method has an annotation with braces between `public` and `static`. -/
def forgetful : Text :=
  "public class A \x7b\n  public @X(\x7b1\x7d) static void main(String[] a) \x7b\x7d\n\x7d\n"

def forgetfulMain : Method where
  marks := [.modifier ⟨.modifier, "public", ⟨2, 3⟩⟩,
    .annotated ⟨.atSign, "@", ⟨2, 10⟩⟩ [⟨.identifier, "X", ⟨2, 11⟩⟩]
      (some ⟨⟨.separator, "(", ⟨2, 12⟩⟩,
        [⟨.separator, "\x7b", ⟨2, 13⟩⟩, ⟨.decimalInteger, "1", ⟨2, 14⟩⟩,
          ⟨.separator, "\x7d", ⟨2, 15⟩⟩],
        ⟨.separator, ")", ⟨2, 16⟩⟩⟩),
    .modifier ⟨.modifier, "static", ⟨2, 18⟩⟩]
  typeParameters := []
  result := [⟨.keyword, "void", ⟨2, 25⟩⟩]
  name := ⟨.identifier, "main", ⟨2, 30⟩⟩
  paren := ⟨.separator, "(", ⟨2, 34⟩⟩
  rest := [⟨.identifier, "String", ⟨2, 35⟩⟩, ⟨.separator, "[", ⟨2, 41⟩⟩, ⟨.separator, "]", ⟨2, 42⟩⟩,
    ⟨.identifier, "a", ⟨2, 44⟩⟩, ⟨.separator, ")", ⟨2, 45⟩⟩]
  ending := .block ⟨.separator, "\x7b", ⟨2, 47⟩⟩ [] ⟨.separator, "\x7d", ⟨2, 48⟩⟩

def forgetfulType : TypeForm where
  marks := [.modifier ⟨.modifier, "public", ⟨1, 1⟩⟩]
  sign := none
  keyword := ⟨.keyword, "class", ⟨1, 8⟩⟩
  name := ⟨.identifier, "A", ⟨1, 14⟩⟩
  tail := []
  opening := ⟨.separator, "\x7b", ⟨1, 16⟩⟩
  body := forgetfulMain.tokens
  closing := ⟨.separator, "\x7d", ⟨3, 1⟩⟩

/-- The method is public and static, has no result and is called `main`, but the type is not found
to declare a main method. -/
theorem CompilationUnit.declaresMain_of_parse_forgetful : ∃ u, parse forgetful = .ok u ∧
    forgetful.items = [forgetfulType.tokens] ∧
    forgetfulType.HasMembers [.method forgetfulMain] [] ∧ forgetfulMain.IsMain ∧
    u.types.map (fun t => t.header.declaresMain) = [false] := by
  obtain ⟨items, has⟩ : forgetful.items = [forgetfulType.tokens] ∧
      forgetfulType.HasMembers [.method forgetfulMain] [] := by
    rw [forgetful, ofString_ofList]
    decide +kernel
  have main : forgetfulMain.IsMain := by decide
  obtain ⟨u, parsed, found⟩ : ∃ u ∈ (parse forgetful).toOption,
      u.types.map (fun t => t.header.declaresMain) = [false] := by
    rw [forgetful, ofString_ofList]
    decide +kernel
  exact ⟨u, toOption_eq_some.1 parsed, items, has, main, found⟩

end JavaUnits
