import JavaUnits.Proofs.Heads
import JavaUnits.Proofs.Remerging

/-!
One declaration of a type, made public and demoted again. The word that is put in before the first
of the declaration's own modifiers is the first visibility that is read when the file is parsed, and
goes again with the one blank behind it.
-/

namespace JavaUnits

open CodePoint Token Scan Text CompilationUnit

/-! ## One declaration -/

namespace Token

/-- Whether the tokens are one complete declaration of a type without a visibility, with the type
keyword at `x`. In no braces there is no other type keyword, no semicolon and no keyword of a
directive. Before the type keyword braces stand in parentheses only, and the last token closes the
last brace. -/
structure IsDeclarationAt (ts : List Token) (x : Site) : Prop where
  site : x ∈ sites ts
  outside : x.isOutside = true
  keyword : x.isKeyword = true
  name : x.name?.isSome = true
  alone : ∀ y ∈ sites ts, y.isTop = true → y.isKeyword = true → y = x
  quiet : ∀ y ∈ sites ts, y.isTop = true → y.token.isSemicolon = false ∧
    y.token.isKeyword "package" = false ∧ y.token.isKeyword "import" = false
  before : ∀ y ∈ sites x.front, y.isOutside = true → y.token.opensBrace = false
  hidden : ∀ t ∈ Header.modifiersOf x.front, t.isVisibility = false
  braces : bracesAfter 0 ts = 0
  ends : ts.getLast?.any closesBrace = true

instance (ts : List Token) (x : Site) : Decidable (IsDeclarationAt ts x) :=
  decidable_of_iff (x ∈ sites ts ∧ x.isOutside = true ∧ x.isKeyword = true ∧
      x.name?.isSome = true ∧ (∀ y ∈ sites ts, y.isTop = true → y.isKeyword = true → y = x) ∧
      (∀ y ∈ sites ts, y.isTop = true → y.token.isSemicolon = false ∧
        y.token.isKeyword "package" = false ∧ y.token.isKeyword "import" = false) ∧
      (∀ y ∈ sites x.front, y.isOutside = true → y.token.opensBrace = false) ∧
      (∀ t ∈ Header.modifiersOf x.front, t.isVisibility = false) ∧ bracesAfter 0 ts = 0 ∧
      ts.getLast?.any closesBrace = true)
    ⟨fun ⟨h₁, h₂, h₃, h₄, h₅, h₆, h₇, h₈, h₉, h₁₀⟩ => ⟨h₁, h₂, h₃, h₄, h₅, h₆, h₇, h₈, h₉, h₁₀⟩,
      fun ⟨h₁, h₂, h₃, h₄, h₅, h₆, h₇, h₈, h₉, h₁₀⟩ => ⟨h₁, h₂, h₃, h₄, h₅, h₆, h₇, h₈, h₉, h₁₀⟩⟩

section

variable {xs ys ts : List Token} {x y : Site}

theorem mem_sites_front (mem : y ∈ sites xs) (ys : List Token) :
    y.within [] ys ∈ sites (xs ++ ys) := by
  have split := sitesFrom_append [] [] xs ys
  rw [List.nil_append, List.nil_append] at split
  rw [sites, split]
  exact List.mem_append_left _ (List.mem_map_of_mem mem)

theorem mem_sites_back (mem : y ∈ sites ys) (xs : List Token) :
    y.within xs [] ∈ sites (xs ++ ys) := by
  have split := sitesFrom_append [] [] xs ys
  have back := sitesFrom_append xs [] ys []
  rw [List.nil_append, List.nil_append] at split
  rw [List.append_nil, List.append_nil] at back
  rw [sites, split, List.nil_append, back]
  exact List.mem_append_right _ (List.mem_append_left _ (List.mem_map_of_mem mem))

theorem mem_sites_split (xs : List Token) (t : Token) (ys : List Token) :
    ⟨xs, t, ys⟩ ∈ sites (xs ++ t :: ys) := by
  have first : (⟨[], t, ys⟩ : Site) ∈ sites (t :: ys) := by rw [sites, sitesFrom]; simp
  simpa [Site.within] using mem_sites_back first xs

end

end Token

namespace Item

variable {f : Item} {xs ts : List Token}

theorem endsWithLast_progress (f : Item) (t : Token) (ts : List Token) :
    endsWithLast f.progress (t :: ts)
      = if isOver (f ++ [t]) then ts.isEmpty else endsWithLast (progress (f ++ [t])) ts := by
  rw [endsWithLast, take_progress]
  cases isOver (f ++ [t]) <;> rfl

theorem exists_endsWithLast (ended : isOver (f ++ xs) = true) (more : xs ≠ []) :
    ∃ ys zs, xs = ys ++ zs ∧ isOver (f ++ ys) = true ∧ endsWithLast f.progress ys = true := by
  induction xs generalizing f with
  | nil => exact absurd rfl more
  | cons t xs ih =>
    by_cases here : isOver (f ++ [t]) = true
    · exact ⟨[t], xs, rfl, here, by rw [endsWithLast_progress, if_pos here]; rfl⟩
    · have whole : f ++ t :: xs = f ++ [t] ++ xs := by simp
      rw [whole] at ended
      obtain ⟨ys, zs, rfl, later, ends⟩ := ih ended (by
        rintro rfl
        exact here (by simpa using ended))
      refine ⟨t :: ys, zs, rfl, by simpa using later, ?_⟩
      rw [endsWithLast_progress, if_neg here]
      exact ends

theorem groupFrom_of_never (never : ∀ x ∈ sitesFrom f ts, isOver (x.front ++ [x.token]) = false) :
    groupFrom f.progress ts = if (f ++ ts).isEmpty then [] else [f ++ ts] := by
  induction ts generalizing f with
  | nil => simp [groupFrom, progress]
  | cons t ts ih =>
    rw [sitesFrom, List.forall_mem_cons] at never
    rw [groupFrom_progress, if_neg (by simp [never.1]), ih never.2]
    simp

theorem opensDirective_eq_false {item : Item} (quiet : ∀ z ∈ sites item, z.isTop = true →
    z.token.isKeyword "package" = false ∧ z.token.isKeyword "import" = false) :
    item.opensDirective = false := by
  cases item with
  | nil => rfl
  | cons first item =>
    have both := quiet ⟨[], first, item⟩ (by rw [sites, sitesFrom]; simp) rfl
    rw [opensDirective, List.head?_cons, Option.any_some, both.1, both.2]
    rfl

end Item

theorem Role.ofItem_of_not_opensDirective {item : Item} (other : item.opensDirective = false) :
    ofItem item = match Header.ofItem? item with
      | some h => type h
      | none => stray := by
  cases item with
  | nil => rfl
  | cons first item =>
    rw [Item.opensDirective, List.head?_cons, Option.any_some, Bool.or_eq_false_iff] at other
    cases found : Header.ofItem? (first :: item) with
    | none => simp [ofItem, other, found]
    | some h => simp [ofItem, other, found]

namespace Token.IsDeclarationAt

variable {ts : List Token} {x : Site}

theorem isTop (declares : IsDeclarationAt ts x) : x.isTop = true := by
  have outside := declares.outside
  rw [Site.isOutside, Bool.and_eq_true] at outside
  exact outside.1

theorem isOver (declares : IsDeclarationAt ts x) : Item.isOver ts = true := by
  have holds : Item.holdsKeyword ts = true :=
    List.any_eq_true.2 ⟨x, declares.site, by rw [declares.isTop, declares.keyword]; rfl⟩
  have ends := declares.ends
  rw [Item.isOver, declares.braces, holds]
  cases last : ts.getLast? with
  | none => rw [last] at ends; cases ends
  | some t =>
    rw [last, Option.any_some] at ends
    simp [ends]

/-- The item that ends first in a declaration is the one that holds its type keyword. -/
theorem exists_site (declares : IsDeclarationAt ts x) {item rest : Item} (whole : ts = item ++ rest)
    (ended : item.isOver = true) :
    ∃ t, item.getLast? = some t ∧ t.closesBrace = true ∧
      ∃ y ∈ sites item, y.within [] rest = x := by
  rw [Item.isOver, Bool.and_eq_true, beq_iff_eq] at ended
  obtain ⟨braces, last⟩ := ended
  cases ends : item.getLast? with
  | none => rw [ends] at last; cases last
  | some t =>
    obtain ⟨init, rfl⟩ := List.getLast?_eq_some_iff.1 ends
    rw [ends, Option.any_some, Bool.or_eq_true, Bool.and_eq_true] at last
    rcases last with mark | ⟨closing, holds⟩
    · have mem := mem_sites_split init t rest
      have split : init ++ t :: rest = ts := by simp [whole]
      have noBrace : t.opensBrace = false := eq_of_isSeparator mark (by decide)
      have noClosing : t.closesBrace = false := eq_of_isSeparator mark (by decide)
      rw [split] at mem
      rw [bracesAfter_concat, noBrace, noClosing] at braces
      have noMark := (declares.quiet _ mem (by simpa [Site.isTop] using braces)).1
      rw [mark] at noMark
      cases noMark
    · obtain ⟨y, inside, is⟩ := List.any_eq_true.1 holds
      rw [Bool.and_eq_true] at is
      exact ⟨t, rfl, closing, y, inside,
        declares.alone _ (whole ▸ mem_sites_front inside rest) is.1 is.2⟩

/-- What is left behind the item that ends first is no item of its own. -/
theorem quiet_rest (declares : IsDeclarationAt ts x) {item rest : Item} (whole : ts = item ++ rest)
    (ended : item.isOver = true) : ∀ z ∈ sites rest, z.isTop = true →
      z.isKeyword = false ∧ z.token.isSemicolon = false ∧ z.token.isKeyword "package" = false ∧
        z.token.isKeyword "import" = false := by
  intro z mem top
  obtain ⟨t, last, closing, y, inside, same⟩ := declares.exists_site whole ended
  have braces : bracesAfter 0 item = 0 := by
    rw [Item.isOver, Bool.and_eq_true, beq_iff_eq] at ended
    exact ended.1
  have mem := mem_sites_back mem item
  rw [← whole] at mem
  have top' : (z.within item []).isTop = true := by
    rw [Site.isTop, Site.within, bracesAfter_append, braces]
    exact top
  have quiet := declares.quiet _ mem top'
  refine ⟨?_, quiet⟩
  rw [Bool.eq_false_iff]
  intro isKeyword
  have keyword : (z.within item []).isKeyword = true := by
    rw [Site.isKeyword, opensType_eq, Bool.and_eq_true] at isKeyword ⊢
    refine ⟨isKeyword.1, ?_⟩
    rw [Site.within, List.getLast?_append, last]
    cases front : z.front.getLast? with
    | none =>
      have noDot : isDot (some t) = false := eq_of_isSeparator closing (by decide)
      rw [Option.none_or, noDot]
      rfl
    | some t' => simpa [front] using isKeyword.2
  -- The type keyword stands in the item, and so before all of the rest.
  have front := congrArg Site.front ((declares.alone _ mem top' keyword).trans same.symm)
  have length := congrArg List.length (eq_of_mem_sites inside)
  have longer := congrArg List.length front
  simp only [Site.within, List.nil_append, List.length_append, List.length_cons] at length longer
  omega

theorem isKeyword_front (declares : IsDeclarationAt ts x) {z : Site} (mem : z ∈ sites x.front)
    (top : z.isTop = true) : z.isKeyword = false := by
  rw [Bool.eq_false_iff]
  intro isKeyword
  have inside := mem_sites_front mem (x.token :: x.back)
  rw [← eq_of_mem_sites declares.site] at inside
  have front := congrArg Site.front (declares.alone (z.within [] (x.token :: x.back)) inside top
    isKeyword)
  have shorter := congrArg List.length (eq_of_mem_sites mem)
  have length := congrArg List.length front
  simp only [Site.within, List.nil_append, List.length_append, List.length_cons] at shorter length
  omega

theorem exists_header (declares : IsDeclarationAt ts x) {item rest : Item}
    (whole : ts = item ++ rest) (ended : item.isOver = true) {y : Site} (inside : y ∈ sites item)
    (same : y.within [] rest = x) :
    ∃ h, Role.ofItem item = .type h ∧ x.name? = some h.name ∧ h.visibilityToken = none := by
  subst same
  have keyword : y.isKeyword = true := declares.keyword
  have outside : y.isOutside = true := declares.outside
  have split := eq_of_mem_sites inside
  have first : (sites item).find? Site.blocks = some y := by
    have parts := sitesFrom_append [] [] y.front (y.token :: y.back)
    rw [List.nil_append, List.nil_append, List.nil_append, ← split, ← sites, ← sites, sitesFrom]
      at parts
    have none : ((sites y.front).map (Site.within [] (y.token :: y.back))).find? Site.blocks
        = none := by
      rw [List.find?_eq_none]
      intro z' inside' blocks
      obtain ⟨z, mem, rfl⟩ := List.mem_map.1 inside'
      have blocks : z.blocks = true := blocks
      rw [Site.blocks, Bool.and_eq_true, Bool.or_eq_true] at blocks
      obtain ⟨outside, brace | isKeyword⟩ := blocks
      · rw [declares.before z mem outside] at brace
        cases brace
      · rw [Site.isOutside, Bool.and_eq_true] at outside
        rw [declares.isKeyword_front mem outside.1] at isKeyword
        cases isKeyword
    rw [parts, List.find?_append, none, Option.none_or, List.find?_cons_of_pos]
    rw [Site.blocks, outside, keyword]
    simp
  have lead := Header.splitAtKeyword?_eq_find [] item
  simp only [List.reverse_nil, Header.parensAfter, bracesAfter] at lead
  rw [← sites, first, Option.bind_some, Item.opensBrace_of_isKeyword keyword,
    Header.splitAtKeyword?_eq, if_neg (by decide)] at lead
  have same := @Item.name?_within rest [] item (.inr ended) y inside keyword
  have named := declares.name
  rw [same] at named ⊢
  obtain ⟨name, back, behind, isName⟩ : ∃ name back, y.back = name :: back ∧
      name.isIdentifier = true := by
    rw [Site.name?] at named
    cases behind : y.back with
    | nil => simp [behind] at named
    | cons name back =>
      refine ⟨name, back, rfl, ?_⟩
      by_contra other
      simp [behind, Option.filter, other] at named
  rw [behind] at lead
  have found := Header.ofItem?_eq_some.2 ⟨_, _, _, _, lead, isName, rfl⟩
  have other : item.opensDirective = false := Item.opensDirective_eq_false fun z mem top =>
    (declares.quiet (z.within [] rest) (whole ▸ mem_sites_front mem rest) top).2
  have hidden : (Header.modifiersOf y.front).find? isVisibility = Option.none :=
    List.find?_eq_none.2 fun t mem => by simp [declares.hidden t mem]
  refine ⟨_, by rw [Role.ofItem_of_not_opensDirective other, found], ?_, hidden⟩
  · rw [Site.name?, behind]
    simp [isName, Option.filter, Header.ofParts]

/-- The tokens of a declaration are the item that declares the type and, where an annotation in the
header ends that early, what is left of them. -/
theorem exists_items (declares : IsDeclarationAt ts x) : ∃ (item rest : Item) (h : Header),
    ts = item ++ rest ∧ item.IsClosed ∧
      Item.group rest = (if rest.isEmpty then [] else [rest]) ∧ Role.ofItem rest = .stray ∧
      Role.ofItem item = .type h ∧ h.visibilityToken = none ∧ x.name? = some h.name := by
  have more : ts ≠ [] := by
    rintro rfl
    cases declares.site
  obtain ⟨item, rest, whole, ended, ends⟩ := Item.exists_endsWithLast
    (show Item.isOver ([] ++ ts) = true from declares.isOver) more
  rw [List.nil_append] at ended
  have quiet := declares.quiet_rest whole ended
  obtain ⟨y, inside, same⟩ : ∃ y ∈ sites item, y.within [] rest = x := by
    obtain ⟨-, -, -, found⟩ := declares.exists_site whole ended
    exact found
  obtain ⟨h, found, name, hidden⟩ := declares.exists_header whole ended inside same
  have keyless {f : Item} {back : List Token} (split : rest = f ++ back) :
      f.holdsKeyword = false := by
    rw [Bool.eq_false_iff]
    intro holds
    obtain ⟨z, mem, is⟩ := List.any_eq_true.1 holds
    rw [Bool.and_eq_true] at is
    have none := (quiet (z.within [] back) (split ▸ mem_sites_front mem back) is.1).1
    exact absurd (is.2.symm.trans none) (by decide)
  have never : ∀ z ∈ sitesFrom [] rest, Item.isOver (z.front ++ [z.token]) = false := by
    intro z mem
    have split := eq_of_mem_sites mem
    rw [Bool.eq_false_iff, Item.isOver, keyless (split.trans (List.append_cons _ _ _)),
      List.getLast?_concat]
    intro isOver
    simp only [Option.any_some, Bool.and_false, Bool.or_false, Bool.and_eq_true,
      beq_iff_eq] at isOver
    obtain ⟨braces, mark⟩ := isOver
    have noBrace : z.token.opensBrace = false := eq_of_isSeparator mark (by decide)
    have noClosing : z.token.closesBrace = false := eq_of_isSeparator mark (by decide)
    rw [bracesAfter_concat, noBrace, noClosing] at braces
    have noMark := (quiet z mem (by simpa [Site.isTop] using braces)).2.1
    exact absurd (mark.symm.trans noMark) (by decide)
  refine ⟨item, rest, h, whole, ends, ?_, ?_, found, hidden, name⟩
  · have grouped := Item.groupFrom_of_never never
    rwa [List.nil_append] at grouped
  · have other : Item.opensDirective rest = false :=
      Item.opensDirective_eq_false fun z mem top => (quiet z mem top).2.2
    have none : Header.ofItem? rest = Option.none := by
      have name := Header.name_ofItem? rest
      rw [← Option.map_eq_none_iff, name, Option.bind_eq_none_iff]
      intro z mem
      have blocks := List.find?_some mem
      rw [Site.blocks, Bool.and_eq_true, Bool.or_eq_true, Site.isOutside,
        Bool.and_eq_true] at blocks
      rcases blocks.2 with brace | isKeyword
      · rw [if_pos brace]
      · rw [(quiet z (List.mem_of_find?_eq_some mem) blocks.1.1).1] at isKeyword
        cases isKeyword
    rw [Role.ofItem_of_not_opensDirective other, none]

end Token.IsDeclarationAt

/-! ## A word put in and taken out -/

namespace Header

section

variable {xs ys as bs : List Token} {v w : Token}

theorem mem_modifiersOf (parens : parensAfter 0 xs = 0) (mark : v.IsMark) (bs : List Token) :
    v ∈ modifiersOf (xs ++ v :: bs) := by
  have first : outsideParens 0 (v :: bs) = v :: outsideParens 0 bs := by
    simp [outsideParens, opensParen, closesParen, mark.isSeparator]
  rw [modifiersOf_append_of_parens parens, modifiersOf, modifiersOf, first, List.filter_cons_of_pos]
  · simp
  · simp [Token.isModifier, mark.kind]

theorem front_eq (same : xs ++ v :: as = ys ++ w :: bs) (parens : parensAfter 0 xs = 0)
    (hidden : ∀ t ∈ modifiersOf xs, t.isVisibility = false) (mark : v.IsMark)
    (shows : v.isVisibility = true) (parens' : parensAfter 0 ys = 0)
    (hidden' : ∀ t ∈ modifiersOf ys, t.isVisibility = false) (mark' : w.IsMark)
    (shows' : w.isVisibility = true) : xs = ys := by
  rcases List.append_eq_append_iff.1 same with ⟨zs, rfl, later⟩ | ⟨zs, rfl, later⟩
  · cases zs with
    | nil => simp
    | cons z zs =>
      obtain ⟨rfl, -⟩ := List.cons.inj later
      rw [hidden' v (mem_modifiersOf parens mark zs)] at shows
      cases shows
  · cases zs with
    | nil => simp
    | cons z zs =>
      obtain ⟨rfl, -⟩ := List.cons.inj later
      rw [hidden w (mem_modifiersOf parens' mark' zs)] at shows'
      cases shows'

end

theorem parensAfter_bare (n : Nat) (ts : List Token) :
    parensAfter n (ts.map Token.bare) = parensAfter n ts := by
  induction ts generalizing n with
  | nil => rfl
  | cons t ts ih => simp only [List.map_cons, parensAfter, opensParen_bare, closesParen_bare, ih]

theorem hidden_bare {ts : List Token} (hidden : ∀ t ∈ modifiersOf ts, t.isVisibility = false) :
    ∀ t ∈ modifiersOf (ts.map Token.bare), t.isVisibility = false := by
  rw [modifiersOf_bare]
  intro t' mem
  obtain ⟨t, inside, rfl⟩ := List.mem_map.1 mem
  exact hidden t inside

/-- The pieces of an item come apart at its visibility when that is set, as they do when it goes. -/
theorem Apart.exists_published {h : Header} {item front mid rest : List Token} {name : Token}
    {visible : Option Token} {ps : List Piece} (apart : h.Apart item front visible mid name rest)
    (nodup : item.Nodup) (tokens : ps.map Piece.token = item.map Token.bare) :
    ∃ fs p q qs, h.publishPieces item ps = fs ++ p :: q :: qs ∧
      fs.map Piece.token = front.map Token.bare ∧
      h.concealPieces item ps = fs ++ q.movedUp p.gap :: qs := by
  have whole := apart.item_eq
  cases shown : visible with
  | some v =>
    obtain ⟨fs, p, q, qs, pieces, sameFront, -, taken⟩ := apart.exists_pieces shown nodup tokens
    rw [shown, Option.toList_some, List.singleton_append] at whole
    have notMem : v ∉ front := by
      rw [whole] at nodup
      exact fun inside => (List.nodup_append.1 nodup).2.2 _ inside _ List.mem_cons_self rfl
    have length : fs.length = front.length := by simpa using congrArg List.length sameFront
    refine ⟨fs, p.asPublic, q, qs, ?_, sameFront, taken⟩
    rw [pieces, whole]
    exact publishPieces_of_some (apart.shown.trans shown) notMem length _ p (q :: qs)
  | none =>
    have missing := apart.shown.trans shown
    obtain ⟨back, behind⟩ := List.head?_eq_some_iff.1 (apart.anchor shown).1
    rw [shown, Option.toList_none, List.nil_append, behind] at whole
    have notMem : h.anchor ∉ front := by
      rw [whole] at nodup
      exact fun inside => (List.nodup_append.1 nodup).2.2 _ inside _ List.mem_cons_self rfl
    rw [whole, List.map_append, List.map_cons] at tokens
    obtain ⟨fs, later, rfl, sameFront, sameLater⟩ := List.map_eq_append_iff.1 tokens
    obtain ⟨p, qs, rfl, -, -⟩ := List.map_eq_cons_iff.1 sameLater
    have length : fs.length = front.length := by simpa using congrArg List.length sameFront
    refine ⟨fs, p.asPublic, p.behindBlank, qs, ?_, sameFront, ?_⟩
    · rw [whole]
      exact publishPieces_of_none missing notMem length back p qs
    · have gap : p.gap ++ [ofChar ' '].dropWhile isSpaceOrTab = p.gap := by
        rw [List.dropWhile_cons_of_pos (by decide), List.dropWhile_nil, List.append_nil]
      rw [concealPieces_of_none missing]
      simp [Piece.movedUp, Piece.behindBlank, Piece.asPublic, gap]

/-- The word that is set as an item's visibility is the one that is taken out. -/
theorem concealPieces_publishPieces {h h' : Header} {item item' : Item} {ps : List Piece}
    (found : ofItem? item = some h) (read : item.IsRead)
    (tokens : ps.map Piece.token = item.map Token.bare) (found' : ofItem? item' = some h')
    (read' : item'.IsRead) (isPublic : h'.visibility = .publicAccess)
    (turned : item'.map Token.bare = (h.publish item).map Token.bare) :
    h'.concealPieces item' (h.publishPieces item ps) = h.concealPieces item ps := by
  obtain ⟨front, visible, mid, name, rest, apart⟩ := exists_apart found read.words
  obtain ⟨front', visible', mid', name', rest', apart'⟩ := exists_apart found' read'.words
  obtain ⟨position, published⟩ := apart.publish_eq read.nodup
  obtain ⟨v, shown'⟩ : ∃ v, visible' = some v := by
    cases shown' : visible' with
    | some v => exact ⟨v, rfl⟩
    | none =>
      rw [visibility, apart'.shown, shown'] at isPublic
      cases isPublic
  obtain ⟨mark', shows'⟩ := apart'.shows v shown'
  have whole' := apart'.item_eq
  rw [shown', Option.toList_some, List.singleton_append] at whole'
  -- Both items have the word in the same place.
  have same : front'.map Token.bare = front.map Token.bare := by
    have split := turned
    rw [published, whole', List.map_append, List.map_append, List.map_cons, List.map_cons] at split
    have mark := isMark_publicToken .start
    exact front_eq split ((parensAfter_bare 0 _).trans apart'.parens) (hidden_bare apart'.hidden)
      ⟨mark'.kind, mark'.word⟩ shows' ((parensAfter_bare 0 _).trans apart.parens)
      (hidden_bare apart.hidden) mark (Written.isVisibility_publicToken .start)
  -- The pieces come apart there.
  obtain ⟨fs, p, q, qs, put, sameFront, gone⟩ := apart.exists_published read.nodup tokens
  have putTokens := token_publishPieces (h := h) tokens
  rw [← turned, put] at putTokens
  obtain ⟨fs', p', q', qs', split, sameFront', -, taken⟩ :=
    apart'.exists_pieces shown' read'.nodup putTokens
  have length : fs.length = fs'.length := by
    have lengths := congrArg List.length (sameFront'.trans (same.trans sameFront.symm))
    simpa using lengths.symm
  obtain ⟨sameFs, later⟩ := List.append_inj split length
  obtain ⟨sameWord, later⟩ := List.cons.inj later
  obtain ⟨sameNext, sameQs⟩ := List.cons.inj later
  rw [put, gone, taken, ← sameFs, ← sameWord, ← sameNext, ← sameQs]

end Header

/-! ## Texts with one type -/

namespace Item

theorem group_tokensFrom (p : Position) {items : List (List Piece)}
    (grouped : group (items.flatten.map Piece.token) = items.map (List.map Piece.token)) :
    group (tokensFrom p items.flatten) = itemsFrom p items := by
  have bare := group_bare (tokensFrom p items.flatten)
  rw [bare_tokensFrom, grouped, ← bare_itemsFrom p items] at bare
  rw [List.eq_iff_flatten_eq, flatten_group, flatten_itemsFrom]
  refine ⟨rfl, ?_⟩
  have lengths := congrArg (List.map List.length) bare
  simpa [List.map_map, Function.comp_def] using lengths.symm

end Item

section

variable {code tail : Text} {ps : List Piece} {items : List (List Piece)}

theorem Scanned.exchange {qs : List Piece} {t : Text} (scanned : Scanned code (ps :: items) tail)
    (closed : Item.IsClosed (ps.map Piece.token)) (closed' : Item.IsClosed (qs.map Piece.token))
    (fits : Fits (qs ++ items.flatten) t) (isTail : IsTail t)
    (plain : (source (qs ++ items.flatten) ++ t).IsPlain) :
    Scanned (source (qs ++ items.flatten) ++ t) (qs :: items) t where
  plain := plain
  whole := rfl
  fits := fits
  isTail := isTail
  nonempty := by
    rw [List.forall_mem_cons]
    refine ⟨?_, fun ps mem => scanned.nonempty ps (List.mem_cons_of_mem _ mem)⟩
    rintro rfl
    exact closed'.ne_nil rfl
  grouped := by
    have grouped := congrArg (List.map (List.map Token.bare)) scanned.grouped
    rw [← Item.group_bare, Scan.tokens, bare_tokensFrom, bare_itemsFrom, List.flatten_cons,
      List.map_append, Item.group_append closed, List.map_cons, List.cons.injEq] at grouped
    apply Item.group_tokensFrom
    rw [List.flatten_cons, List.map_append, Item.group_append closed', grouped.2, List.map_cons]
  closed := by
    have all := scanned.closed
    cases items with
    | nil => simp
    | cons next items =>
      rw [List.dropLast_cons_cons, List.forall_mem_cons] at all ⊢
      exact ⟨closed', all.2⟩

theorem Block.text_strays {bs : List Block} (sound : ∀ b ∈ bs, b.IsSound)
    (strays : ∀ b ∈ bs, b.role = .stray) (rest : Text) :
    partsFrom rest bs = [] ∧ ownedText rest bs = bs.flatMap text ++ rest ∧
      ∀ change, bs.flatMap (turned change) = bs.flatMap text := by
  induction bs with
  | nil => exact ⟨rfl, rfl, fun _ => rfl⟩
  | cons b bs ih =>
    rw [List.forall_mem_cons] at sound strays
    obtain ⟨parts, owned, turns⟩ := ih sound.2 strays.2
    have taken := sound.1.taken (by rw [strays.1]; rfl)
    refine ⟨?_, ?_, fun change => ?_⟩
    · rw [partsFrom, strays.1, parts]
    · rw [ownedText, strays.1, owned, List.flatMap_cons, text, taken]
      simp [Role.isType, Role.isDirective]
    · rw [List.flatMap_cons, List.flatMap_cons, turns, turned, text, taken, strays.1]
      simp

end

theorem Role.exists_of_bare {xs ys : Item} {h : Header}
    (same : xs.map Token.bare = ys.map Token.bare) (role : ofItem ys = .type h) :
    ∃ h', ofItem xs = .type h' ∧ h'.bare = h.bare := by
  have both := ofItem_bare xs
  rw [same, ofItem_bare, role] at both
  cases is : ofItem xs with
  | type h' =>
    rw [is] at both
    exact ⟨h', rfl, (Role.type.inj both).symm⟩
  | _ => rw [is] at both; cases both

section

variable {ps : List Piece} {gap : Text}

theorem isPlain_regap (blank : ∀ c ∈ gap, c.isBlank = true) (plain : ∀ p ∈ ps, p.IsPlain) :
    ∀ p ∈ regap gap ps, p.IsPlain := by
  cases ps with
  | nil => exact plain
  | cons p ps =>
    rw [regap, List.forall_mem_cons]
    rw [List.forall_mem_cons] at plain
    refine ⟨⟨isPlain_of_noBackslash fun mem => ?_, plain.1.2⟩, plain.2⟩
    exact absurd (blank _ mem) (by decide)

theorem solid_regap (solid : ∀ p ∈ ps, ofChar '\n' ∉ p.lexeme) :
    ∀ p ∈ regap gap ps, ofChar '\n' ∉ p.lexeme := by
  cases ps with
  | nil => exact solid
  | cons p ps => exact List.forall_mem_cons.2 (List.forall_mem_cons.1 solid)

theorem Header.solid_publishPieces {h : Header} {item : Item}
    (solid : ∀ p ∈ ps, ofChar '\n' ∉ p.lexeme) :
    ∀ p ∈ h.publishPieces item ps, ofChar '\n' ∉ p.lexeme := by
  have word : ofChar '\n' ∉ Text.ofString "public" := by decide
  induction item generalizing ps with
  | nil => simpa [publishPieces] using solid
  | cons t ts ih =>
    cases ps with
    | nil => simp [publishPieces]
    | cons p ps =>
      rw [List.forall_mem_cons] at solid
      rw [publishPieces]
      split
      · exact List.forall_mem_cons.2 ⟨word, solid.2⟩
      split
      · exact List.forall_mem_cons.2 ⟨word, List.forall_mem_cons.2 solid⟩
      · exact List.forall_mem_cons.2 ⟨solid.1, ih solid.2⟩

theorem Header.leadingGap_publishPieces (h : Header) (item : Item) (ps : List Piece) :
    leadingGap (h.publishPieces item ps) = leadingGap ps := by
  cases item with
  | nil => cases ps <;> rfl
  | cons t ts =>
    cases ps with
    | nil => rfl
    | cons p ps =>
      rw [publishPieces]
      split
      · rfl
      split <;> rfl

end

theorem regap_leadingGap (ps : List Piece) : regap (leadingGap ps) ps = ps := by
  cases ps <;> rfl

/-- Whether nothing but blanks stands before the first token on its line. -/
def Text.beginsLine (s : Text) : Bool :=
  isBlank (s.slice (s.lineStart (gapLength s)) (gapLength s))

/-- Whether the text is scanned as an item that declares a type and strays behind it, if any, none
of whose tokens go over several lines. -/
structure IsSoleType (code : Text) (ps : List Piece) (items : List (List Piece)) (tail : Text)
    (h : Header) : Prop where
  scanned : Scanned code (ps :: items) tail
  solid : ∀ p ∈ (ps :: items).flatten, ofChar '\n' ∉ p.lexeme
  role : Role.ofItem (tokensFrom .start ps) = .type h
  closed : Item.IsClosed (ps.map Piece.token)
  strays : ∀ qs ∈ items, Role.ofItem (qs.map Piece.token) = .stray
  ends : ∀ p, items.flatten.getLast? = some p → p.isSealed = true

theorem bodyLines_of_mem {code : Text} {cuts : List Span} {located : List Located} {t : TypeDecl}
    (mem : t ∈ typesOf code cuts located) :
    t.bodyLines = lines (stripRight (t.span.render code cuts [])) := by
  induction located with
  | nil => cases mem
  | cons l located ih =>
    rcases List.mem_cons.1 mem with rfl | mem
    · rfl
    · exact ih mem

theorem bodyLines_ofBlocks {code : Text} {blocks : List Block} {t : TypeDecl}
    (mem : t ∈ (ofBlocks code blocks).types) :
    t.bodyLines = lines (stripRight ((ofBlocks code blocks).text t.span [])) :=
  bodyLines_of_mem mem

namespace IsSoleType

variable {code tail : Text} {ps : List Piece} {items : List (List Piece)} {h : Header}

theorem placed (sole : IsSoleType code ps items tail h) : Placed code (ps :: items).flatten := by
  rw [sole.scanned.whole]
  exact placed_of_noBreak sole.solid tail

theorem role_stray (sole : IsSoleType code ps items tail h) (p : Position) :
    ∀ item ∈ itemsFrom p items, Role.ofItem item = .stray := by
  intro item mem
  have bare := List.mem_map_of_mem (f := List.map Token.bare) mem
  rw [bare_itemsFrom] at bare
  obtain ⟨qs, inside, same⟩ := List.mem_map.1 bare
  have stray := sole.strays qs inside
  rw [same, Role.ofItem_bare] at stray
  cases role : Role.ofItem item <;> simp_all [Role.bare]

theorem parts_turned (sole : IsSoleType code ps items tail h) :
    (∃ strays, partsFrom (restOf (ps :: items) tail) (blocksOf (ps :: items) tail)
        = [⟨tokensFrom .start ps, h, regap (lastLine (leadingGap ps)) ps,
          source items.flatten ++ tail, strays⟩]) ∧
      (blocksOf (ps :: items) tail).flatMap (Block.turned (Header.bodyPieces true))
          ++ restOf (ps :: items) tail
        = Preceding.nothing.kept (.type h) (leadingGap ps)
          ++ source (h.demotePieces (tokensFrom .start ps) (regap (lastLine (leadingGap ps)) ps))
          ++ (source items.flatten ++ tail) := by
  have after : Preceding.nothing.after (.type h) ps = .item := after_item rfl _ _
  have own : Preceding.nothing.own (.type h) (leadingGap ps) = lastLine (leadingGap ps) := by
    simp [Preceding.own, Preceding.isFresh]
  have blocks : blocksOf (ps :: items) tail = Preceding.nothing.block (tokensFrom .start ps)
      (.type h) ps (nextGap tail items)
        :: blocksFrom .item (positionFrom .start ps) tail items := by
    rw [blocksOf, blocksFrom, sole.role, after]
  have rest : restOf (ps :: items) tail = restFrom .item (positionFrom .start ps) tail items := by
    rw [restOf, restFrom, sole.role, after]
  have sound := isSound_blocksFrom sole.scanned.fits sole.scanned.nonempty .nothing .start
  rw [← blocksOf, blocks, List.forall_mem_cons] at sound
  have roles : ∀ b ∈ blocksFrom .item (positionFrom .start ps) tail items, b.role = .stray := by
    intro b mem
    have mem := List.mem_map_of_mem (f := Block.role) mem
    rw [role_blocksFrom] at mem
    obtain ⟨item, inside, same⟩ := List.mem_map.1 mem
    rw [← same, sole.role_stray _ item inside]
  obtain ⟨parts, owned, turns⟩ := Block.text_strays sound.2 roles
    (restFrom .item (positionFrom .start ps) tail items)
  have text := text_blocksFrom .item (positionFrom .start ps) tail fun qs mem =>
    sole.scanned.nonempty qs (List.mem_cons_of_mem _ mem)
  rw [Preceding.taken_item, List.nil_append] at text
  rw [blocks, rest]
  constructor
  · rw [partsFrom]
    simp only [Preceding.block, parts, owned, text, own]
    exact ⟨_, rfl⟩
  · rw [List.flatMap_cons, turns, List.append_assoc, text, Block.turned]
    simp only [Preceding.block, own]
    rfl

theorem exists_unit (sole : IsSoleType code ps items tail h) (noReturn : ofChar '\r' ∉ code) :
    ∃ u t part, parse code = .ok u ∧ u.types = [t] ∧ Shows u t part ∧ part.header = h ∧
      part.item = tokensFrom .start ps ∧ part.pieces = regap (lastLine (leadingGap ps)) ps ∧
      part.trailing = source items.flatten ++ tail ∧
      t.bodyLines = lines (stripRight (source part.pieces ++ part.trailing)) ∧
      u.demotedBody = trimBlankLines (lines (Preceding.nothing.kept (.type h) (leadingGap ps)
        ++ source (h.demotePieces part.item part.pieces) ++ part.trailing)) := by
  have shows := sole.scanned.parts sole.placed
  have body := sole.scanned.text_body sole.placed true
  obtain ⟨⟨strays, part⟩, turned⟩ := sole.parts_turned
  rw [part] at shows
  rw [turned] at body
  obtain ⟨t, none, first, later, types⟩ := List.forall₂_cons_right_iff.1 shows
  obtain rfl := List.forall₂_nil_right_iff.1 later
  have lines := bodyLines_ofBlocks (by rw [types]; exact List.mem_singleton_self t)
  rw [first.text_eq (edited_nil _ _)] at lines
  exact ⟨_, t, _, parse_eq sole.scanned sole.placed (unifyBreaks_of_notMem noReturn), types, first,
    rfl, rfl, rfl, rfl, lines, body⟩

theorem fits_blanks {gap : Text} (sole : IsSoleType code ps items tail h)
    (blank : ∀ c ∈ gap, c.isBlank = true) (s : Text) : Fits (regap gap ps) s := by
  have fits := (fits_append.1 (show Fits (ps ++ items.flatten) tail from sole.scanned.fits)).1
  refine (JavaUnits.fits_regap fits (.of_blank blank)).of_isClosed ?_ s
  rw [token_regap]
  exact sole.closed

theorem publish {gap : Text} {qs : List Piece} (sole : IsSoleType code ps items tail h)
    (missing : h.visibilityToken = none) (blank : ∀ c ∈ gap, c.isBlank = true)
    (put : qs = h.publishPieces (tokensFrom .start ps) (regap gap ps))
    (fits : ∀ s, Fits (regap gap ps) s → Fits qs s) :
    ∃ h', IsSoleType (source (qs ++ items.flatten) ++ stripRight tail) qs items (stripRight tail)
        h' ∧ h'.name = h.name ∧ h'.visibility = .publicAccess ∧
      h'.demotePieces (tokensFrom .start qs) qs = regap gap ps := by
  have read : Item.IsRead (tokensFrom .start ps) :=
    sole.scanned.isRead sole.placed _ List.mem_cons_self
  have found := Role.ofItem_eq_type sole.role
  have tokens : (regap gap ps).map Piece.token = (tokensFrom .start ps).map Token.bare := by
    rw [token_regap, bare_tokensFrom]
  have tokens' := Header.token_publishPieces (h := h) tokens
  rw [← put] at tokens'
  have same : (tokensFrom .start qs).map Token.bare
      = (h.publish (tokensFrom .start ps)).map Token.bare := by
    rw [bare_tokensFrom, tokens']
  obtain ⟨h', found', name, -, -, isPublic, closed⟩ := Header.exists_publish found read
  obtain ⟨h'', role, bare⟩ := Role.exists_of_bare same (Header.ofItem_publish sole.role found')
  have isPublic : h''.visibility = .publicAccess := by
    rw [← Header.visibility_bare, bare, Header.visibility_bare, isPublic]
  have closed' : Item.IsClosed (qs.map Piece.token) := by
    rw [tokens', Item.isClosed_bare]
    apply closed
    rw [← Item.isClosed_bare, bare_tokensFrom]
    exact sole.closed
  obtain ⟨b, split, blanks, -⟩ := stripRight_split tail
  have items' : Fits items.flatten (stripRight tail) :=
    (fits_append.1 (show Fits (ps ++ items.flatten) tail from sole.scanned.fits)).2.exchange_sealed
      sole.ends _
  have all : Fits (qs ++ items.flatten) (stripRight tail) :=
    fits_append.2 ⟨fits _ (sole.fits_blanks blank _), items'⟩
  have plain := (isPlain_source sole.scanned.fits).1 (sole.scanned.whole ▸ sole.scanned.plain)
  rw [List.flatten_cons, List.forall_mem_append] at plain
  have solid := sole.solid
  rw [List.flatten_cons, List.forall_mem_append] at solid
  have sole' : IsSoleType (source (qs ++ items.flatten) ++ stripRight tail) qs items
      (stripRight tail) h'' := by
    refine ⟨sole.scanned.exchange sole.closed closed' all ?_ ?_, ?_, role, closed', sole.strays,
      sole.ends⟩
    · exact IsTail.of_append_blanks (split ▸ sole.scanned.isTail) blanks
    · refine (isPlain_source all).2 ⟨List.forall_mem_append.2 ⟨?_, plain.1.2⟩, ?_⟩
      · rw [put]
        exact Header.isPlain_publishPieces (isPlain_regap blank plain.1.1)
      · exact IsPlain.of_append (split ▸ plain.2)
    · rw [List.flatten_cons, List.forall_mem_append]
      rw [put]
      exact ⟨Header.solid_publishPieces (solid_regap solid.1), solid.2⟩
  refine ⟨h'', sole', ?_, isPublic, ?_⟩
  · exact (congrArg Header.name bare).trans name
  · have read' : Item.IsRead (tokensFrom .start qs) :=
      sole'.scanned.isRead sole'.placed _ List.mem_cons_self
    rw [Header.demotePieces, if_pos isPublic]
    have taken := Header.concealPieces_publishPieces found read tokens
      (Role.ofItem_eq_type role) read' isPublic same
    rwa [← put, Header.concealPieces_of_none missing] at taken

theorem stripRight_regap {gap : Text} (sole : IsSoleType code ps items tail h)
    (blank : ∀ c ∈ gap, c.isBlank = true) (within : ofChar '\n' ∉ gap) :
    ∃ s, stripRight (source (regap gap ps) ++ (source items.flatten ++ tail)) = s ∧
      s = source (regap gap ps) ++ (source items.flatten ++ stripRight tail) ∧
      trimBlankLines (lines s) = lines s := by
  have items' := (fits_append.1 (show Fits (ps ++ items.flatten) tail from sole.scanned.fits)).2
  have fits : Fits (regap gap ps ++ items.flatten) tail :=
    fits_append.2 ⟨sole.fits_blanks blank _, items'⟩
  obtain ⟨p, qs, rfl⟩ := List.exists_cons_of_ne_nil (sole.scanned.nonempty ps List.mem_cons_self)
  have stripped := stripRight_source fits (by simp [regap])
  rw [source_append, List.append_assoc, List.append_assoc] at stripped
  refine ⟨_, rfl, stripped, ?_⟩
  obtain ⟨-, -, -, last⟩ := stripRight_split
    (source (regap gap (p :: qs)) ++ (source items.flatten ++ tail))
  obtain ⟨c, s, lexeme, ink⟩ := sole.scanned.fits.isInk p (by simp)
  rw [stripped, regap, source_cons] at last ⊢
  simp only [lexeme, List.cons_append, List.append_assoc] at last ⊢
  exact (isTrimmed_lines within ink last).trim_eq

theorem blank_of_beginsLine (sole : IsSoleType code ps items tail h)
    (begins : code.beginsLine = true) : ∀ c ∈ lastLine (leadingGap ps), c.isBlank = true := by
  obtain ⟨p, qs, rfl⟩ := List.exists_cons_of_ne_nil (sole.scanned.nonempty ps List.mem_cons_self)
  obtain ⟨gap, ⟨c, s, lexeme, none, -⟩, -⟩ := sole.scanned.fits
  have whole := sole.scanned.whole
  rw [List.flatten_cons, List.cons_append, source_cons, List.append_assoc,
    List.append_assoc] at whole
  have length : gapLength code = p.gap.length := by
    rw [whole, gap.gapLength_append, lexeme, List.cons_append]
    exact Nat.add_eq_left.2 none
  rw [Text.beginsLine, length, whole, lineStart_eq, slice_lineStart] at begins
  exact List.all_eq_true.1 begins

end IsSoleType

/-- A text of one declaration is scanned as its type. -/
theorem Token.IsDeclarationAt.exists_sole {s : Text} {ts : List Token} {x : Site}
    (declares : IsDeclarationAt ts x) (plain : s.IsPlain) (read : tokenize s = .ok ts)
    (solid : ∀ t ∈ ts, ofChar '\n' ∉ t.value) :
    ∃ ps items tail h, IsSoleType s ps items tail h ∧ h.visibilityToken = none ∧
      x.name? = some h.name := by
  obtain ⟨all, tail, scanned, rfl⟩ := exists_scanned plain read
  obtain ⟨item, rest, h, whole, closed, grouped, stray, role, missing, name⟩ :=
    declares.exists_items
  have split := scanned.grouped
  rw [whole, Item.group_append closed, grouped] at split
  cases all with
  | nil => cases split
  | cons ps items =>
    obtain ⟨rfl, later⟩ := List.cons.inj split
    have bare := bare_tokensFrom .start (ps :: items).flatten
    refine ⟨ps, items, tail, h, ⟨scanned, fun p mem => ?_, role, ?_, fun qs mem => ?_,
      fun p last => ?_⟩, missing, name⟩
    · have mem := List.mem_map_of_mem (f := Piece.token) mem
      rw [← bare] at mem
      obtain ⟨t, inside, token⟩ := List.mem_map.1 mem
      have lexeme : t.value = p.lexeme := congrArg Token.value token
      rw [← lexeme]
      exact solid t inside
    · rw [← bare_tokensFrom .start, Item.isClosed_bare]
      exact closed
    · obtain ⟨item, inside, same⟩ := mem_itemsFrom (p := positionFrom .start ps) mem
      rw [← later] at inside
      split at inside
      · cases inside
      · rw [List.mem_singleton] at inside
        rw [← same, inside, Role.ofItem_bare, stray]
        rfl
    · have final : (ps :: items).flatten.getLast? = some p := by
        rw [List.flatten_cons, List.getLast?_append, last, Option.some_or]
      have ends := congrArg List.getLast? bare
      rw [List.getLast?_map, List.getLast?_map, final] at ends
      obtain ⟨t, isLast, token⟩ := Option.map_eq_some_iff.1 ends
      have closes := declares.ends
      rw [Scan.tokens, isLast, Option.any_some, ← closesBrace_bare, token] at closes
      simp only [closesBrace, isSeparator, Bool.and_eq_true, beq_iff_eq, Piece.token] at closes
      simp only [Piece.isSealed, Bool.and_eq_true, decide_eq_true_eq, bne_iff_ne, ne_eq]
      exact ⟨of_decide_eq_true closes.1, by rw [closes.2]; decide⟩

/-! ## Promoting and demoting -/

theorem CompilationUnit.mem_publicBody {u : CompilationUnit} {t : TypeDecl} {c : CodePoint}
    (mem : c ∈ ofLines (publicBody u t)) : c ∈ u.code ∨ c ∈ Text.ofString "public " := by
  rw [publicBody, ofLines_lines] at mem
  obtain ⟨b, split, -⟩ := stripRight_split (u.text t.span (publicEdit? t).toList)
  apply mem_publicText (t := t)
  rw [split]
  exact List.mem_append_left b mem

/-- A declaration of a type made public is one of the same type, which is public. Demoted again, it
is what it was, where the word that is put in joins none before it. -/
theorem demotedBody_publicBody {s : Text} {ts : List Token} {x : Site} (plain : s.IsPlain)
    (noReturn : ofChar '\r' ∉ s) (read : tokenize s = .ok ts)
    (solid : ∀ t ∈ ts, ofChar '\n' ∉ t.value) (begins : s.beginsLine = true)
    (declares : IsDeclarationAt ts x) :
    ∃ u t, parse s = .ok u ∧ u.types = [t] ∧ x.name? = some t.name ∧ (u.IsLoose t →
      ∃ u' t', parse (ofLines (publicBody u t)) = .ok u' ∧ u'.types = [t'] ∧ t'.name = t.name ∧
        t'.isPublic = true ∧ u'.demotedBody = t.bodyLines) := by
  obtain ⟨ps, items, tail, h, sole, missing, name⟩ := declares.exists_sole plain read solid
  obtain ⟨u, t, part, parsed, types, shows, rfl, item, pieces, trailing, body, -⟩ :=
    sole.exists_unit noReturn
  refine ⟨u, t, parsed, types, by rw [name, TypeDecl.name, shows.header], fun loose => ?_⟩
  have blank := sole.blank_of_beginsLine begins
  have within := break_notMem_lastLine (leadingGap ps)
  have ink : ∀ p ∈ part.pieces, p.IsInk := by
    rw [pieces]
    exact (sole.fits_blanks blank []).isInk
  have promoted := shows.text_eq (shows.edited_public ink)
  have fits (s : Text) (fits : Fits part.pieces s) := shows.fits_public fits loose
  rw [item, pieces] at promoted fits
  obtain ⟨h', sole', name', isPublic, demoted⟩ := sole.publish missing blank rfl fits
  have text : ofLines (publicBody u t)
      = source (part.header.publishPieces (tokensFrom .start ps)
          (regap (lastLine (leadingGap ps)) ps) ++ items.flatten) ++ stripRight tail := by
    have items' := (fits_append.1 (show Fits (ps ++ items.flatten) tail from sole.scanned.fits)).2
    have all := fits_append.2 ⟨fits _ (sole.fits_blanks blank _), items'⟩
    have more := sole'.scanned.nonempty _ List.mem_cons_self
    rw [publicBody, ofLines_lines, promoted, trailing, ← List.append_assoc, ← source_append,
      stripRight_source all (by simp [more])]
  have noReturn' : ofChar '\r' ∉ ofLines (publicBody u t) := by
    intro mem
    rcases mem_publicBody mem with mem | mem
    · rw [code_of_parse parsed, unifyBreaks_of_notMem noReturn] at mem
      exact noReturn mem
    · exact absurd mem (by decide)
  rw [text] at noReturn' ⊢
  obtain ⟨u', t', part', parsed', types', shows', rfl, item', pieces', trailing', -, body'⟩ :=
    sole'.exists_unit noReturn'
  -- The text begins with the line of the type, and so nothing is left before it.
  have gap : leadingGap (part.header.publishPieces (tokensFrom .start ps)
      (regap (lastLine (leadingGap ps)) ps)) = lastLine (leadingGap ps) := by
    obtain ⟨p, qs, rfl⟩ := List.exists_cons_of_ne_nil (sole.scanned.nonempty ps List.mem_cons_self)
    rw [Header.leadingGap_publishPieces]
    rfl
  have kept : Preceding.nothing.kept (.type part'.header) (lastLine (leadingGap ps)) = [] := by
    simp [Preceding.kept, Preceding.own, Preceding.isFresh, lastLine_of_noBreak within]
  have own := regap_leadingGap (part.header.publishPieces (tokensFrom .start ps)
      (regap (lastLine (leadingGap ps)) ps))
  rw [gap] at own
  rw [gap, lastLine_of_noBreak within, own] at pieces'
  rw [gap, kept, item', pieces', demoted, trailing', List.nil_append] at body'
  obtain ⟨y, stripped, is, trimmed⟩ := sole.stripRight_regap blank within
  refine ⟨u', t', parsed', types', ?_, ?_, ?_⟩
  · rw [TypeDecl.name, TypeDecl.name, shows'.header, shows.header, name']
  · exact shows'.isPublic_iff.2 isPublic
  · rw [body', body, pieces, trailing, stripped, ← is, trimmed]

/-- A type among comments, with braces in the annotations before its keyword and behind its name. -/
def loner : Text :=
  "// lead\n  @Named(of = \x7bint.class, Object.class\x7d) /* a */ final strictfp // b\n"
    ++ "class Loner<T extends @Sized(\x7b1\x7d) Number> \x7b\n"
    ++ "  class Inner { int x; }\n\x7d // end  \n\n"

theorem demotedBody_publicBody_loner : ∃ ts x u t, tokenize loner = .ok ts ∧
    IsDeclarationAt ts x ∧ parse loner = .ok u ∧ u.types = [t] ∧ x.name? = some t.name ∧
    u.IsLoose t ∧ ∃ u' t', parse (ofLines (publicBody u t)) = .ok u' ∧ u'.types = [t'] ∧
      t'.name = t.name ∧ t'.isPublic = true ∧ u'.demotedBody = t.bodyLines := by
  obtain ⟨ts, read, solid, x, -, declares⟩ : ∃ ts ∈ (tokenize loner).toOption,
      (∀ t ∈ ts, ofChar '\n' ∉ t.value) ∧ ∃ x ∈ sites ts, IsDeclarationAt ts x := by
    rw [loner, ofString_ofList, ofString_ofList]
    decide +kernel
  obtain ⟨plain, noReturn, begins, loose⟩ : loner.IsPlain ∧ ofChar '\r' ∉ loner ∧
      loner.beginsLine = true ∧ ∀ u ∈ (parse loner).toOption, ∀ t ∈ u.types, u.IsLoose t := by
    rw [loner, ofString_ofList, ofString_ofList]
    decide +kernel
  have read := toOption_eq_some.1 read
  obtain ⟨u, t, parsed, types, name, undone⟩ :=
    demotedBody_publicBody plain noReturn read solid begins declares
  have loose := loose u (toOption_eq_some.2 parsed) t (by simp [types])
  exact ⟨ts, x, u, t, read, declares, parsed, types, name, loose, undone loose⟩

/-- An annotation type whose sign stands right behind a name. -/
def glued : Text :=
  "@Marked@interface A {}\n"

/-- The word that is put in becomes part of the name before it. -/
theorem demotedBody_publicBody_glued : ∃ ts x u t, glued.IsPlain ∧ ofChar '\r' ∉ glued ∧
    tokenize glued = .ok ts ∧ (∀ t ∈ ts, ofChar '\n' ∉ t.value) ∧ glued.beginsLine = true ∧
    IsDeclarationAt ts x ∧ parse glued = .ok u ∧ u.types = [t] ∧
    ∀ u', parse (ofLines (publicBody u t)) = .ok u' →
      (∀ t' ∈ u'.types, t'.isPublic = false) ∧ u'.demotedBody ≠ t.bodyLines := by
  obtain ⟨ts, read, solid, x, -, declares⟩ : ∃ ts ∈ (tokenize glued).toOption,
      (∀ t ∈ ts, ofChar '\n' ∉ t.value) ∧ ∃ x ∈ sites ts, IsDeclarationAt ts x := by
    rw [glued, ofString_ofList]
    decide +kernel
  obtain ⟨u, parsed, t, -, types, kept⟩ : ∃ u ∈ (parse glued).toOption, ∃ t ∈ u.types,
      u.types = [t] ∧ ∀ u' ∈ (parse (ofLines (publicBody u t))).toOption,
        (∀ t' ∈ u'.types, t'.isPublic = false) ∧ u'.demotedBody ≠ t.bodyLines := by
    rw [glued, ofString_ofList]
    decide +kernel
  exact ⟨ts, x, u, t, by decide +kernel, by decide +kernel, toOption_eq_some.1 read, solid,
    by decide +kernel, declares, toOption_eq_some.1 parsed, types,
    fun u' parsed' => kept u' (toOption_eq_some.2 parsed')⟩

end JavaUnits
