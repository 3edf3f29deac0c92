import JavaUnits.Proofs.Scalars

/-!
Which types a text declares, told by the heads of its declarations: the type keywords outside
brackets that a name follows. Items are cut by one walk over the tokens and their headers are found
by another, each with counts of its own. Both are restated by the tokens that stand before a place,
where they agree.
-/

namespace JavaUnits

open CodePoint Token Scan Text CompilationUnit

/-! ## Places among tokens -/

namespace Token

/-- How many braces are open behind the tokens. -/
def bracesAfter (braces : Nat) : List Token → Nat
  | [] => braces
  | t :: ts =>
    if t.opensBrace then bracesAfter (braces + 1) ts
    else if t.closesBrace then bracesAfter (braces - 1) ts
    else bracesAfter braces ts

theorem bracesAfter_append (n : Nat) (xs ys : List Token) :
    bracesAfter n (xs ++ ys) = bracesAfter (bracesAfter n xs) ys := by
  induction xs generalizing n with
  | nil => rfl
  | cons x xs ih =>
    rw [List.cons_append, bracesAfter, bracesAfter]
    split
    · exact ih _
    split
    · exact ih _
    · exact ih _

structure Site where
  front : List Token
  token : Token
  back : List Token
  deriving DecidableEq

/-- Where the tokens stand behind `front`. -/
def sitesFrom (front : List Token) : List Token → List Site
  | [] => []
  | t :: ts => ⟨front, t, ts⟩ :: sitesFrom (front ++ [t]) ts

def sites (ts : List Token) : List Site :=
  sitesFrom [] ts

/-- The place where what is before it stands behind `d` and what is behind it stands before `ys`. -/
def Site.within (d ys : List Token) (x : Site) : Site :=
  ⟨d ++ x.front, x.token, x.back ++ ys⟩

theorem sitesFrom_append (d f xs ys : List Token) : sitesFrom (d ++ f) (xs ++ ys)
    = (sitesFrom f xs).map (Site.within d ys) ++ sitesFrom (d ++ (f ++ xs)) ys := by
  induction xs generalizing f with
  | nil => simp [sitesFrom]
  | cons x xs ih =>
    have ih := ih (f ++ [x])
    rw [List.append_assoc f, List.singleton_append] at ih
    rw [List.cons_append, sitesFrom, List.append_assoc d f, ih]
    rfl

theorem sites_concat (xs : List Token) (t : Token) :
    sites (xs ++ [t]) = (sites xs).map (Site.within [] [t]) ++ [⟨xs, t, []⟩] :=
  sitesFrom_append [] [] xs [t]

theorem eq_of_mem_sites {ts : List Token} {x : Site} (mem : x ∈ sites ts) :
    ts = x.front ++ x.token :: x.back := by
  suffices all : ∀ f, x ∈ sitesFrom f ts → f ++ ts = x.front ++ x.token :: x.back from all [] mem
  clear mem
  induction ts with
  | nil => simp [sitesFrom]
  | cons t ts ih =>
    intro f mem
    rcases List.mem_cons.1 mem with rfl | mem
    · rfl
    · simpa using ih (f ++ [t]) mem

end Token

namespace Token.Site

def isTop (x : Site) : Bool :=
  bracesAfter 0 x.front == 0

/-- Whether the token stands in no braces and no parentheses. -/
def isOutside (x : Site) : Bool :=
  x.isTop && Header.parensAfter 0 x.front == 0

def isKeyword (x : Site) : Bool :=
  x.token.opensType x.front.getLast?

/-- Whether the token is a brace or a type keyword in no brackets. -/
def blocks (x : Site) : Bool :=
  x.isOutside && (x.token.opensBrace || x.isKeyword)

def name? (x : Site) : Option Text :=
  (x.back.head?.filter isIdentifier).map Token.value

end Token.Site

namespace Item

def holdsKeyword (item : Item) : Bool :=
  (sites item).any fun x => x.isTop && x.isKeyword

/-- Whether an item is over: with a semicolon in no braces, or with the brace after which none is
open, where a type keyword stands in no braces. -/
def isOver (item : Item) : Bool :=
  bracesAfter 0 item == 0 &&
    item.getLast?.any fun t => t.isSemicolon || t.closesBrace && item.holdsKeyword

/-- The tokens behind the last item that is over; those of `item` stand before the given ones. -/
def openFrom (item : Item) : List Token → Item
  | [] => item
  | t :: ts => if isOver (item ++ [t]) then openFrom [] ts else openFrom (item ++ [t]) ts

/-- The item in the midst of which the tokens end. -/
def openAfter (ts : List Token) : Item :=
  openFrom [] ts

/-- Whether the item begins as a package or an import declaration does. -/
def opensDirective (item : Item) : Bool :=
  item.head?.any fun t => t.isKeyword "package" || t.isKeyword "import"

end Item

namespace Token.Site

/-- Whether a declaration of a type begins with the token, modifiers apart. -/
def isHead (x : Site) : Bool :=
  x.isOutside && x.isKeyword && x.name?.isSome && !(Item.openAfter x.front).opensDirective

/-- Whether neither a brace nor a type keyword stands before the token in its item, save in
brackets. -/
def leads (x : Site) : Bool :=
  (sites (Item.openAfter x.front)).all fun y => !y.blocks

end Token.Site

/-! ## Where items end -/

section

variable {f xs ys ts : List Token} {t : Token}

theorem Token.opensType_eq_false_of_isSeparator {value : Text} (is : t.isSeparator value = true)
    (previous : Option Token) : t.opensType previous = false := by
  simp [opensType, (isSeparator_iff.1 is).1, Kind.isKeyword]

theorem Token.bracesAfter_concat (n : Nat) (f : List Token) (t : Token) :
    bracesAfter n (f ++ [t]) = if t.opensBrace then bracesAfter n f + 1
      else if t.closesBrace then bracesAfter n f - 1 else bracesAfter n f := by
  rw [bracesAfter_append, bracesAfter]
  rfl

theorem Header.parensAfter_concat (n : Nat) (f : List Token) (t : Token) :
    parensAfter n (f ++ [t]) = if t.opensParen then parensAfter n f + 1
      else if t.closesParen then parensAfter n f - 1 else parensAfter n f := by
  rw [parensAfter_append, parensAfter]
  rfl

namespace Item

theorem holdsKeyword_concat (f : Item) (t : Token) : holdsKeyword (f ++ [t])
    = (f.holdsKeyword || bracesAfter 0 f == 0 && t.opensType f.getLast?) := by
  rw [holdsKeyword, sites_concat, List.any_append, List.any_map]
  simp [holdsKeyword, Function.comp_def, Site.within, Site.isTop, Site.isKeyword]

/-- What is known in the midst of an item whose tokens so far are `f`. -/
def progress (f : Item) : Progress :=
  ⟨f.reverse, bracesAfter 0 f, f.holdsKeyword⟩

theorem take_progress (f : Item) (t : Token) :
    f.progress.take t = (progress (f ++ [t]), isOver (f ++ [t])) := by
  have braces := bracesAfter_concat 0 f t
  rw [Progress.take, progress, progress, isOver, holdsKeyword_concat, List.reverse_concat,
    List.head?_reverse, List.getLast?_concat, Option.any_some]
  split
  · rename_i opens
    rw [if_pos opens] at braces
    simp [braces]
  rename_i opens
  rw [if_neg opens] at braces
  split
  · rename_i closing
    have noMark : t.isSemicolon = false := eq_of_isSeparator closing (by decide)
    rw [if_pos closing] at braces
    simp [braces, noMark, closing]
  · rename_i closing
    rw [if_neg closing] at braces
    simp [braces, closing, Bool.and_comm]

theorem groupFrom_progress (f : Item) (t : Token) (ts : List Token) :
    groupFrom f.progress (t :: ts)
      = if isOver (f ++ [t]) then (f ++ [t]) :: group ts
        else groupFrom (progress (f ++ [t])) ts := by
  rw [groupFrom, take_progress]
  cases isOver (f ++ [t]) with
  | true => simp [progress, group]
  | false => rfl

theorem openFrom_append (f xs ys : List Token) :
    openFrom f (xs ++ ys) = openFrom (openFrom f xs) ys := by
  induction xs generalizing f with
  | nil => rfl
  | cons x xs ih =>
    rw [List.cons_append, openFrom, openFrom]
    split
    · exact ih _
    · exact ih _

end Item

/-! ## What the header of an item is -/

namespace Header

/-- The type keyword of an item is found at the first place that blocks the way, unless that is a
brace. -/
theorem splitAtKeyword?_eq_find (f ts : List Token) :
    splitAtKeyword? f.reverse (parensAfter 0 f) (bracesAfter 0 f) ts
      = ((sitesFrom f ts).find? Site.blocks).bind fun x =>
        if x.token.opensBrace then none else some (x.front, x.token, x.back) := by
  induction ts generalizing f with
  | nil => rfl
  | cons t ts ih =>
    have ih := ih (f ++ [t])
    rw [List.reverse_concat, parensAfter_concat, bracesAfter_concat] at ih
    have here : Site.blocks ⟨f, t, ts⟩ = (bracesAfter 0 f == 0 && parensAfter 0 f == 0
        && (t.opensBrace || t.opensType f.getLast?)) := rfl
    rw [splitAtKeyword?, sitesFrom, List.find?_cons, List.head?_reverse, List.reverse_reverse, here]
    split
    · rename_i opens
      have noBrace : t.opensBrace = false := eq_of_isSeparator opens (by decide)
      have noClose : t.closesBrace = false := eq_of_isSeparator opens (by decide)
      simpa [opens, noBrace, noClose, opensType_eq_false_of_isSeparator opens] using ih
    rename_i noOpen
    rw [if_neg noOpen] at ih
    split
    · rename_i closes
      have noBrace : t.opensBrace = false := eq_of_isSeparator closes (by decide)
      have noClose : t.closesBrace = false := eq_of_isSeparator closes (by decide)
      simpa [closes, noBrace, noClose, opensType_eq_false_of_isSeparator closes] using ih
    rename_i noClose
    rw [if_neg noClose] at ih
    split
    · rename_i brace
      rw [if_pos brace] at ih
      split
      · rename_i outside
        simp [brace, outside]
      · rename_i inside
        have noBlock : (bracesAfter 0 f == 0 && parensAfter 0 f == 0) = false := by
          rw [← Bool.not_eq_true, Bool.and_eq_true, beq_iff_eq, beq_iff_eq]
          exact fun both => inside both.symm
        rw [noBlock, Bool.false_and]
        exact ih
    rename_i noBrace
    rw [if_neg noBrace] at ih
    split
    · rename_i closing
      rw [if_pos closing] at ih
      simpa [noBrace, opensType_eq_false_of_isSeparator closing] using ih
    rename_i noClosing
    rw [if_neg noClosing] at ih
    split
    · rename_i isHere
      simp [noBrace, isHere]
    · rename_i other
      have noBlock : (bracesAfter 0 f == 0 && parensAfter 0 f == 0
          && (t.opensBrace || t.opensType f.getLast?)) = false := by
        rw [← Bool.not_eq_true, Bool.and_eq_true, Bool.and_eq_true, beq_iff_eq, beq_iff_eq,
          Bool.eq_false_iff.2 noBrace, Bool.false_or]
        exact fun all => other ⟨all.1.2, all.1.1, all.2⟩
      rw [noBlock]
      exact ih

theorem name_ofItem? (item : Item) : (ofItem? item).map Header.name
    = ((sites item).find? Site.blocks).bind fun x =>
      if x.token.opensBrace then none else x.name? := by
  have split := splitAtKeyword?_eq_find [] item
  simp only [List.reverse_nil, parensAfter, bracesAfter] at split
  cases item with
  | nil => rfl
  | cons first item =>
    simp only [ofItem?, split, sites]
    cases (sitesFrom [] (first :: item)).find? Site.blocks with
    | none => rfl
    | some x =>
      obtain ⟨front, t, back⟩ := x
      simp only [Option.bind_some]
      cases t.opensBrace with
      | true => rfl
      | false =>
        cases back with
        | nil => rfl
        | cons name back =>
          cases isName : name.isIdentifier <;> simp [isName, Site.name?, Option.filter]

end Header

theorem Token.filter_leads (f ts : List Token) : (sitesFrom f ts).filter (fun x => x.blocks
      && (sites x.front).all fun y => !y.blocks)
    = if (sites f).any Site.blocks then [] else ((sitesFrom f ts).find? Site.blocks).toList := by
  induction ts generalizing f with
  | nil => simp [sitesFrom]
  | cons t ts ih =>
    have here : Site.blocks ⟨f, t, []⟩ = Site.blocks ⟨f, t, ts⟩ := rfl
    have more : (sites (f ++ [t])).any Site.blocks
        = ((sites f).any Site.blocks || Site.blocks ⟨f, t, ts⟩) := by
      rw [sites_concat, List.any_append, List.any_map, List.any_cons, here, List.any_nil,
        Bool.or_false]
      rfl
    have first : ((sites f).all fun y => !y.blocks) = !(sites f).any Site.blocks := by
      rw [List.not_any_eq_all_not]
    rw [sitesFrom, List.filter_cons, ih, more, List.find?_cons, first]
    cases (sites f).any Site.blocks <;> cases Site.blocks ⟨f, t, ts⟩ <;> simp

/-! ## Heads of items -/

namespace Item

theorem opensType_of_isOver {item : Item} (ended : item.isOver = true) {front : List Token}
    (last : item = front ++ [t]) (previous : Option Token) : t.opensType previous = false := by
  rw [isOver, last, List.getLast?_concat, Option.any_some, Bool.and_eq_true, Bool.or_eq_true,
    Bool.and_eq_true] at ended
  rcases ended.2 with mark | brace
  · exact opensType_eq_false_of_isSeparator mark previous
  · exact opensType_eq_false_of_isSeparator brace.1 previous

/-- Whether items begin anew behind the tokens, and neither brackets nor a dot go on. -/
structure IsSettled (d : List Token) : Prop where
  fresh : openAfter d = []
  braces : bracesAfter 0 d = 0
  parens : Header.parensAfter 0 d = 0
  noDot : isDot d.getLast? = false

theorem isSettled_nil : IsSettled [] :=
  ⟨rfl, rfl, rfl, rfl⟩

variable {d : List Token} {item : Item}

theorem IsSettled.within (settled : IsSettled d) {x : Site}
    (going : openAfter (d ++ x.front) = x.front) (ys : List Token) :
    (x.within d ys).isOutside = x.isOutside ∧ (x.within d ys).isKeyword = x.isKeyword ∧
      (x.within d ys).leads = ((sites x.front).all fun y => !y.blocks) ∧
      (x.within d ys).isHead = (x.isOutside && x.isKeyword && (x.within d ys).name?.isSome
        && !opensDirective x.front) := by
  have outside : (x.within d ys).isOutside = x.isOutside := by
    simp only [Site.isOutside, Site.isTop, Site.within, bracesAfter_append, settled.braces,
      Header.parensAfter_append, settled.parens]
  have keyword : (x.within d ys).isKeyword = x.isKeyword := by
    simp only [Site.isKeyword, Site.within]
    rw [opensType_eq, opensType_eq x.front.getLast?, List.getLast?_append]
    cases x.front.getLast? with
    | none => rw [Option.none_or, settled.noDot]; rfl
    | some t => rfl
  refine ⟨outside, keyword, ?_, ?_⟩
  · rw [Site.leads, Site.within, going]
  · rw [Site.isHead, outside, keyword]
    rw [show openAfter (x.within d ys).front = x.front from going]

theorem header?_of_opensDirective (directive : item.opensDirective = true) :
    item.header? = none := by
  cases item with
  | nil => rfl
  | cons first item =>
    rw [opensDirective, List.head?_cons, Option.any_some, Bool.or_eq_true] at directive
    rw [header?, Role.ofItem]
    split
    · rfl
    split
    · rfl
    · rename_i noPackage noImport
      exact (directive.elim noPackage noImport).elim

theorem header?_of_not_opensDirective (other : item.opensDirective = false) :
    item.header? = Header.ofItem? item := by
  cases item with
  | nil => rfl
  | cons first item =>
    rw [opensDirective, List.head?_cons, Option.any_some, Bool.or_eq_false_iff] at other
    rw [header?, Role.ofItem, if_neg (by simp [other.1]), if_neg (by simp [other.2])]
    cases Header.ofItem? (first :: item) <;> rfl

theorem name?_within (last : ys = [] ∨ item.isOver = true) {x : Site} (mem : x ∈ sites item)
    (isKeyword : x.isKeyword = true) : (x.within d ys).name? = x.name? := by
  rw [Site.name?, Site.name?, Site.within]
  rcases last with rfl | ended
  · rw [List.append_nil]
  · cases back : x.back with
    | cons name back => rfl
    | nil =>
      have whole := eq_of_mem_sites mem
      rw [back] at whole
      rw [Site.isKeyword, opensType_of_isOver ended whole] at isKeyword
      cases isKeyword

theorem opensBrace_of_isKeyword {x : Site} (isKeyword : x.isKeyword = true) :
    x.token.opensBrace = false := by
  by_contra brace
  rw [Bool.not_eq_false] at brace
  rw [Site.isKeyword, opensType_eq_false_of_isSeparator brace] at isKeyword
  cases isKeyword

theorem opensDirective_front {x : Site} (mem : x ∈ sites item) (more : x.front ≠ []) :
    opensDirective x.front = item.opensDirective := by
  obtain ⟨first, front, split⟩ := List.exists_cons_of_ne_nil more
  rw [eq_of_mem_sites mem, split]
  rfl

theorem isKeyword_of_opensDirective {x : Site} (mem : x ∈ sites item) (first : x.front = [])
    (directive : item.opensDirective = true) : x.isKeyword = false := by
  rw [eq_of_mem_sites mem, first, opensDirective, List.nil_append, List.head?_cons, Option.any_some,
    Bool.or_eq_true] at directive
  apply opensType_of_notMem
  simp only [Token.isKeyword, Bool.and_eq_true, beq_iff_eq] at directive
  rcases directive with is | is
  · rw [is.2]
    decide
  · rw [is.2]
    decide

/-- The heads of an item are at most one, that of the type it declares. -/
theorem names_item (settled : IsSettled d)
    (going : ∀ x ∈ sites item, openAfter (d ++ x.front) = x.front)
    (last : ys = [] ∨ item.isOver = true) :
    (((sites item).map (Site.within d ys)).filter fun x => x.isHead && x.leads).filterMap Site.name?
      = (item.header?.map Header.name).toList := by
  rw [List.filter_map, List.filterMap_map]
  cases directive : item.opensDirective with
  | true =>
    rw [header?_of_opensDirective directive, List.filter_eq_nil_iff.2 fun x mem => ?_]
    · rfl
    · obtain ⟨-, -, -, head⟩ := settled.within (going x mem) ys
      rw [Function.comp_apply, head]
      by_cases first : x.front = []
      · simp [isKeyword_of_opensDirective mem first directive]
      · simp [opensDirective_front mem first, directive]
  | false =>
    rw [header?_of_not_opensDirective directive, Header.name_ofItem?]
    have leading : (sites item).filter ((fun x => x.isHead && x.leads) ∘ Site.within d ys)
        = ((sites item).filter fun x => x.blocks && (sites x.front).all fun y => !y.blocks).filter
          fun x => !x.token.opensBrace && x.name?.isSome := by
      rw [List.filter_filter]
      apply List.filter_congr
      intro x mem
      obtain ⟨-, -, leads, head⟩ := settled.within (going x mem) ys
      have noDirective : opensDirective x.front = false := by
        by_cases first : x.front = []
        · rw [first]
          rfl
        · rw [opensDirective_front mem first, directive]
      rw [Function.comp_apply, head, leads, noDirective, Site.blocks]
      cases isKeyword : x.isKeyword with
      | true =>
        rw [name?_within last mem isKeyword, opensBrace_of_isKeyword isKeyword]
        cases x.isOutside <;> cases x.name?.isSome <;> simp
      | false =>
        cases x.isOutside <;> cases x.token.opensBrace <;> simp
    rw [leading, sites, filter_leads]
    rw [if_neg (by simp [sites, sitesFrom]), ← sites]
    cases found : (sites item).find? Site.blocks with
    | none => rfl
    | some x =>
      have blocks := List.find?_some found
      have mem := List.mem_of_find?_eq_some found
      rw [Site.blocks, Bool.and_eq_true, Bool.or_eq_true] at blocks
      cases brace : x.token.opensBrace with
      | true => simp [brace]
      | false =>
        rw [brace] at blocks
        have same := name?_within (d := d) last mem (by simpa using blocks.2)
        cases name : x.name? <;> simp [brace, name, same]

theorem openAfter_append (settled : IsSettled d) (f : List Token) :
    openAfter (d ++ f) = openAfter f := by
  rw [openAfter, openFrom_append, ← openAfter, settled.fresh, openAfter]

theorem isDot_of_isOver {f : Item} (ended : isOver (f ++ [t]) = true) : isDot (some t) = false := by
  rw [isOver, List.getLast?_concat, Option.any_some, Bool.and_eq_true, Bool.or_eq_true,
    Bool.and_eq_true] at ended
  rcases ended.2 with mark | brace
  · exact eq_of_isSeparator mark (by decide)
  · exact eq_of_isSeparator brace.1 (by decide)

/-- Items begin anew behind one that is over and does not end in parentheses. -/
theorem IsSettled.concat {f : Item} (settled : IsSettled d) (going : openAfter f = f)
    (ended : isOver (f ++ [t]) = true) (parens : Header.parensAfter 0 (d ++ (f ++ [t])) = 0) :
    IsSettled (d ++ (f ++ [t])) where
  fresh := by
    rw [openAfter_append settled, openAfter, openFrom_append, ← openAfter, going, openFrom,
      if_pos ended]
    rfl
  braces := by
    rw [bracesAfter_append, settled.braces]
    rw [isOver, Bool.and_eq_true, beq_iff_eq] at ended
    exact ended.1
  parens := parens
  noDot := by
    rw [← List.append_assoc, List.getLast?_concat]
    exact isDot_of_isOver ended

/-- The types that are declared by the item in the midst of which the tokens `f` end, and by those
behind it, are the ones of the heads. -/
theorem names_groupFrom {f : Item} (settled : IsSettled d) (going : openAfter f = f)
    (before : ∀ x ∈ sites f, openAfter x.front = x.front)
    (outside : ∀ x ∈ sitesFrom (d ++ f) ts, isOver (openAfter x.front ++ [x.token]) = true →
      Header.parensAfter 0 (x.front ++ [x.token]) = 0) :
    (groupFrom f.progress ts).filterMap (fun item => item.header?.map Header.name)
      = ((sitesFrom d (f ++ ts)).filter fun x => x.isHead && x.leads).filterMap Site.name? := by
  induction ts generalizing d f with
  | nil =>
    cases f with
    | nil => rfl
    | cons first f =>
      have names := names_item settled (fun x mem => by
        rw [openAfter_append settled, before x mem]) (.inl (rfl : [] = []))
      have split := sitesFrom_append d [] (first :: f) []
      rw [List.append_nil, sitesFrom, List.append_nil, List.append_nil, ← sites] at split
      have grouped : groupFrom (progress (first :: f)) [] = [first :: f] := by
        simp [groupFrom, progress]
      rw [List.append_nil, split, grouped, names, List.filterMap_cons, List.filterMap_nil]
      cases header? (first :: f) <;> rfl
  | cons t ts ih =>
    have before' : ∀ x ∈ sites (f ++ [t]), openAfter x.front = x.front := by
      intro x mem
      rw [sites_concat, List.mem_append, List.mem_map, List.mem_singleton] at mem
      rcases mem with ⟨y, mem, rfl⟩ | rfl
      · exact before y mem
      · exact going
    have whole : f ++ t :: ts = (f ++ [t]) ++ ts := by simp
    rw [sitesFrom, List.forall_mem_cons, List.append_assoc] at outside
    obtain ⟨here, later⟩ := outside
    rw [groupFrom_progress]
    split
    · rename_i ended
      rw [openAfter_append settled, going] at here
      have names := @names_item ts d _ settled (fun x mem => by
        rw [openAfter_append settled, before' x mem]) (.inr ended)
      have split := sitesFrom_append d [] (f ++ [t]) ts
      rw [List.append_nil, List.nil_append, ← sites] at split
      have rest := ih (f := []) (settled.concat going ended (here ended)) rfl
        (by simp [sites, sitesFrom]) (by rwa [List.append_nil])
      rw [whole, split, List.filter_append, List.filterMap_append, names]
      rw [List.nil_append] at rest
      rw [← rest, List.filterMap_cons]
      cases header? (f ++ [t]) <;> rfl
    · rename_i more
      rw [whole]
      refine ih settled ?_ before' later
      rw [openAfter, openFrom_append, ← openAfter, going, openFrom, if_neg more, openFrom]

end Item

end

/-- The types of a text are those behind its heads: the type keywords in no brackets that a name
follows, before which, from the end of the last declaration on, no brace and no other type keyword
stands in no brackets. -/
theorem names_of_parse {s : Text} {u : CompilationUnit} {ts : List Token} (parsed : parse s = .ok u)
    (read : tokenize s.unifyBreaks = .ok ts)
    (outside : ∀ x ∈ sites ts, Item.isOver (Item.openAfter x.front ++ [x.token]) = true →
      Header.parensAfter 0 (x.front ++ [x.token]) = 0) :
    u.types.map TypeDecl.name
      = ((sites ts).filter fun x => x.isHead && x.leads).filterMap Site.name? := by
  have items : s.items = Item.group ts := by rw [Text.items, read]; rfl
  have headers := congrArg (List.map Header.name) (outlines_of_parse parsed).headers
  rw [List.map_map, List.map_map] at headers
  have names := Item.names_groupFrom (f := []) Item.isSettled_nil rfl (by simp [sites, sitesFrom])
    outside
  rw [show Item.progress [] = {} from rfl, ← Item.group, ← items, List.nil_append, ← sites] at names
  calc u.types.map TypeDecl.name = (s.items.filterMap Item.header?).map Header.name := headers
    _ = _ := by rw [List.map_filterMap, names]

/-- Types among annotations with braces, nested types, strays and a declaration of another kind. -/
def assorted : Text :=
  "package p;\nimport java.util.List;\n@Named(value = \x7b\"class\", \"x\"\x7d, of = int.class)\n"
    ++ "abstract class Shape<T> { class Inner {} } ;\n"
    ++ "record Point(int x) {};\n"
    ++ "@interface Mark {} public enum Kind { A, B; }\n"
    ++ "interface Last { void f(); }\n"

theorem names_of_parse_assorted : ∃ u ts, parse assorted = .ok u ∧
    tokenize assorted.unifyBreaks = .ok ts ∧
    (∀ x ∈ sites ts, Item.isOver (Item.openAfter x.front ++ [x.token]) = true →
      Header.parensAfter 0 (x.front ++ [x.token]) = 0) ∧
    u.types.map TypeDecl.name
      = ((sites ts).filter fun x => x.isHead && x.leads).filterMap Site.name? ∧
    u.types.map TypeDecl.name = ["Shape", "Mark", "Kind", "Last"].map Text.ofString := by
  obtain ⟨u, parsed, ts, read, outside, names⟩ : ∃ u ∈ (parse assorted).toOption,
      ∃ ts ∈ (tokenize assorted.unifyBreaks).toOption,
        (∀ x ∈ sites ts, Item.isOver (Item.openAfter x.front ++ [x.token]) = true →
          Header.parensAfter 0 (x.front ++ [x.token]) = 0) ∧
        u.types.map TypeDecl.name = ["Shape", "Mark", "Kind", "Last"].map Text.ofString := by
    rw [assorted, ofString_ofList, ofString_ofList, ofString_ofList, ofString_ofList,
      ofString_ofList]
    decide +kernel
  have parsed := toOption_eq_some.1 parsed
  have read := toOption_eq_some.1 read
  exact ⟨u, ts, parsed, read, outside, names_of_parse parsed read outside, names⟩

/-- A declaration of another kind that ends with a brace. -/
def forerun : Text :=
  "record R(int x) {}\nclass A {}\n"

/-- The brace block before the only head of a text, in the same item, hides the type. -/
theorem names_of_parse_forerun : ∃ u ts, parse forerun = .ok u ∧
    tokenize forerun.unifyBreaks = .ok ts ∧
    bracesAfter 0 ts = 0 ∧ Header.parensAfter 0 ts = 0 ∧
    ((sites ts).filter Site.isHead).map (fun x => x.back.map Token.value)
      = [["A", "\x7b", "\x7d"].map Text.ofString] ∧
    u.types = [] := by
  obtain ⟨u, parsed, ts, read, rest⟩ : ∃ u ∈ (parse forerun).toOption,
      ∃ ts ∈ (tokenize forerun.unifyBreaks).toOption,
        bracesAfter 0 ts = 0 ∧ Header.parensAfter 0 ts = 0 ∧
        ((sites ts).filter Site.isHead).map (fun x => x.back.map Token.value)
          = [["A", "\x7b", "\x7d"].map Text.ofString] ∧
        u.types = [] := by
    rw [forerun, ofString_ofList]
    decide +kernel
  exact ⟨u, ts, toOption_eq_some.1 parsed, toOption_eq_some.1 read, rest⟩

end JavaUnits
