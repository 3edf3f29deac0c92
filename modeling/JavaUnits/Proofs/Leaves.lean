import JavaUnits.Proofs.Promotion
import JavaUnits.Proofs.Remerging
import JavaUnits.Proofs.Singles

/-!
Texts of imports on lines of their own and types behind them, each with the strays that follow it.
Every type begins its line, so that what such a text is parsed as are its leaves, and the body of a
text with one leaf is that leaf.
-/

namespace JavaUnits

open CodePoint Token Scan Text CompilationUnit

/-! ## Items on a line -/

/-- The passages of items with nothing between them but the gaps of their own. -/
def Passage.inLine (gap : Text) : List (List Piece) → List Passage
  | [] => []
  | [ps] => [⟨ps, gap⟩]
  | ps :: qs :: items => ⟨ps, []⟩ :: inLine gap (qs :: items)

theorem precede_nil (ps : List Piece) : Piece.precede [] ps = ps := by
  cases ps <;> rfl

namespace Passage

variable {gap : Text} {items : List (List Piece)}

theorem text_inLine (gap : Text) (ps : List Piece) (items : List (List Piece)) :
    (inLine gap (ps :: items)).flatMap text = source ps ++ (source items.flatten ++ gap) := by
  induction items generalizing ps with
  | nil => simp [inLine, text]
  | cons qs items ih => simp [inLine, text, ih qs, source_append]

theorem chain_inLine (above gap : Text) (ps : List Piece) (items : List (List Piece))
    (xs : List Passage) : chain above (inLine gap (ps :: items) ++ xs)
      = Piece.precede above ps :: (items ++ chain gap xs) := by
  induction items generalizing above ps with
  | nil => rfl
  | cons qs items ih =>
    rw [inLine, List.cons_append, chain, ih [] qs, precede_nil, List.cons_append]

theorem last_inLine (above gap : Text) (ps : List Piece) (items : List (List Piece))
    (xs : List Passage) : last above (inLine gap (ps :: items) ++ xs) = last gap xs := by
  induction items generalizing above ps with
  | nil => rfl
  | cons qs items ih => rw [inLine, List.cons_append, last, ih [] qs]

theorem mem_inLine {x : Passage} (mem : x ∈ inLine gap items) :
    x.pieces ∈ items ∧ (x.behind = [] ∨ x.behind = gap) := by
  fun_induction inLine gap items with
  | case1 => cases mem
  | case2 ps =>
    obtain rfl := List.mem_singleton.1 mem
    exact ⟨List.mem_singleton_self ps, .inr rfl⟩
  | case3 ps qs items ih =>
    rcases List.mem_cons.1 mem with rfl | mem
    · exact ⟨List.mem_cons_self, .inl rfl⟩
    · exact ⟨List.mem_cons_of_mem _ (ih mem).1, (ih mem).2⟩

theorem pieces_inLine (gap : Text) (items : List (List Piece)) :
    (inLine gap items).map pieces = items := by
  fun_induction inLine gap items with
  | case1 => rfl
  | case2 => rfl
  | case3 ps qs items ih => rw [List.map_cons, ih]

end Passage

/-! ## Leaves -/

/-- A type with the strays behind it, and the text behind these. -/
structure Leaf where
  pieces : List Piece
  strays : List (List Piece)
  gap : Text

namespace Leaf

def behind (l : Leaf) : Text :=
  source l.strays.flatten ++ l.gap

def text (l : Leaf) : Text :=
  source l.pieces ++ l.behind

def items (l : Leaf) : List (List Piece) :=
  l.pieces :: l.strays

/-- Whether the items are complete and what they are said to be, may be scanned before any text, and
have no tokens that go over several lines. The type begins on the line on which its text begins. -/
structure IsSound (l : Leaf) : Prop where
  fits : ∀ ps ∈ l.items, ∀ s, Fits ps s
  closed : ∀ ps ∈ l.items, Item.IsClosed (ps.map Piece.token)
  solid : ∀ ps ∈ l.items, ∀ p ∈ ps, ofChar '\n' ∉ p.lexeme
  within : ofChar '\n' ∉ leadingGap l.pieces
  isType : (Role.ofItem (l.pieces.map Piece.token)).isType = true
  strays : ∀ ps ∈ l.strays, Role.ofItem (ps.map Piece.token) = .stray

/-- Whether the line on which the leaf ends is ended. -/
structure Ends (l : Leaf) : Prop where
  isGap : IsGap l.gap
  ends : l.gap.EndsLine

def passages (l : Leaf) : List Passage :=
  Passage.inLine l.gap l.items

/-- The items that leaves make when `above` stands before them. -/
def chain (above : Text) : List Leaf → List (List Piece)
  | [] => []
  | l :: ls => Piece.precede above l.pieces :: (l.strays ++ chain l.gap ls)

def last (above : Text) : List Leaf → Text
  | [] => above
  | l :: ls => last l.gap ls

variable {l : Leaf} {ls : List Leaf} {above : Text}

theorem text_passages (l : Leaf) : l.passages.flatMap Passage.text = l.text :=
  Passage.text_inLine l.gap l.pieces l.strays

theorem chain_passages (above : Text) (ls : List Leaf) :
    Passage.chain above (ls.flatMap passages) = chain above ls := by
  induction ls generalizing above with
  | nil => rfl
  | cons l ls ih =>
    rw [List.flatMap_cons, passages, items, Passage.chain_inLine, ih, chain]

theorem last_passages (above : Text) (ls : List Leaf) :
    Passage.last above (ls.flatMap passages) = last above ls := by
  induction ls generalizing above with
  | nil => rfl
  | cons l ls ih => rw [List.flatMap_cons, passages, items, Passage.last_inLine, ih, last]

namespace IsSound

theorem ne_nil (sound : l.IsSound) : l.pieces ≠ [] := by
  intro none
  have isType := sound.isType
  rw [none] at isType
  cases isType

theorem isSound_passages (sound : l.IsSound) (ends : l.Ends) : ∀ x ∈ l.passages, x.IsSound := by
  intro x mem
  obtain ⟨inside, behind⟩ := Passage.mem_inLine mem
  refine ⟨sound.fits _ inside, sound.closed _ inside, ?_, sound.solid _ inside⟩
  rcases behind with same | same <;> rw [same]
  · exact .nil
  · exact ends.isGap

theorem import?_eq_none (sound : l.IsSound) : ∀ ps ∈ l.items,
    Item.import? (ps.map Piece.token) = none := by
  intro ps mem
  rw [Item.import?]
  rcases List.mem_cons.1 mem with rfl | mem
  · have isType := sound.isType
    cases role : Role.ofItem (l.pieces.map Piece.token) <;>
      simp_all [Role.isType, Role.import?]
  · rw [sound.strays ps mem]
    rfl

end IsSound

end Leaf

/-! ## Strays -/

section

variable {pre : Preceding} {role : Role} {gap indent tail : Text} {p : Position}

/-- What goes with a type that begins its line is what stands before it on the line. -/
theorem Preceding.Breaks.own_type {h : Header} (breaks : pre.Breaks gap)
    (within : ofChar '\n' ∉ indent) : pre.own (.type h) (gap ++ indent) = indent := by
  have fresh : pre.isFresh (gap ++ indent) = true := by
    rw [Preceding.isFresh, Bool.or_eq_true, decide_eq_true_eq, List.contains_iff_mem]
    exact breaks.fresh.imp id fun mem => List.mem_append_left _ mem
  rw [Preceding.own, if_pos fresh, lastLine_append, if_neg within, breaks.ends, List.nil_append]

theorem exists_blocks_strays {strays : List (List Piece)}
    (isStray : ∀ ps ∈ strays, Role.ofItem (ps.map Piece.token) = .stray) (p : Position)
    (tail : Text) (items : List (List Piece)) :
    ∃ p' bs, blocksFrom .item p tail (strays ++ items) = bs ++ blocksFrom .item p' tail items ∧
      restFrom .item p tail (strays ++ items) = restFrom .item p' tail items ∧
      (∀ b ∈ bs, b.role = .stray ∧ b.taken = []) ∧
      bs.flatMap Block.text = source strays.flatten := by
  induction strays generalizing p with
  | nil => exact ⟨p, [], rfl, rfl, by simp, rfl⟩
  | cons ps strays ih =>
    rw [List.forall_mem_cons] at isStray
    have role : Role.ofItem (tokensFrom p ps) = .stray := by
      have same := Role.ofItem_bare (tokensFrom p ps)
      rw [bare_tokensFrom, isStray.1] at same
      cases found : Role.ofItem (tokensFrom p ps) with
      | stray => rfl
      | _ => rw [found] at same; cases same
    have after : Preceding.item.after .stray ps = .item := after_item rfl _ _
    obtain ⟨p', bs, blocks, rest, all, text⟩ := ih isStray.2 (positionFrom p ps)
    refine ⟨p', Preceding.item.block (tokensFrom p ps) .stray ps
      (nextGap tail (strays ++ items)) :: bs, ?_, ?_, List.forall_mem_cons.2 ⟨⟨rfl, ?_⟩, all⟩, ?_⟩
    · rw [List.cons_append, blocksFrom, role, after, blocks, List.cons_append]
    · rw [List.cons_append, restFrom, role, after, rest]
    · simp only [Preceding.block]
      rw [after, Preceding.taken_item]
    · rw [List.flatMap_cons, text, List.flatten_cons, source_append, Block.text]
      simp only [Preceding.block]
      rw [after, Preceding.taken_item, List.append_nil]
      have kept : Preceding.item.kept .stray (leadingGap ps) = leadingGap ps := by
        simp [Preceding.kept, Preceding.own]
      rw [kept]
      exact congrArg (· ++ source strays.flatten) (source_eq_inkText ps).symm

end

theorem Block.owned_strays {bs : List Block} (strays : ∀ b ∈ bs, b.role = .stray ∧ b.taken = [])
    (rest : Text) (later : List Block) :
    partsFrom rest (bs ++ later) = partsFrom rest later ∧
      ownedText rest (bs ++ later) = bs.flatMap text ++ ownedText rest later ∧
      ∀ change, bs.flatMap (turned change) = bs.flatMap text := by
  induction bs with
  | nil => exact ⟨rfl, rfl, fun _ => rfl⟩
  | cons b bs ih =>
    rw [List.forall_mem_cons] at strays
    obtain ⟨⟨role, taken⟩, strays⟩ := strays
    obtain ⟨parts, owned, turns⟩ := ih strays
    refine ⟨?_, ?_, fun change => ?_⟩
    · rw [List.cons_append, partsFrom, role, parts]
    · rw [List.cons_append, ownedText, role, owned, List.flatMap_cons, text, taken]
      simp [Role.isType, Role.isDirective]
    · rw [List.flatMap_cons, List.flatMap_cons, turns, turned, text, taken, role]
      simp

/-! ## Leaves one after another -/

namespace Leaf

variable {l : Leaf} {ls : List Leaf} {pre : Preceding} {above : Text}

/-- The blocks of a leaf: its type, with what is left of the text before it, and its strays. -/
theorem IsSound.exists_blocks (sound : l.IsSound) (breaks : pre.Breaks above) (p : Position)
    (tail : Text) (items : List (List Piece)) :
    ∃ h b bs p', blocksFrom pre p tail (Piece.precede above l.pieces :: (l.strays ++ items))
        = b :: (bs ++ blocksFrom .item p' tail items) ∧
      restFrom pre p tail (Piece.precede above l.pieces :: (l.strays ++ items))
        = restFrom .item p' tail items ∧
      b.role = .type h ∧ b.kept = pre.left above ∧ b.pieces = l.pieces ∧
      (∀ b ∈ bs, b.role = .stray ∧ b.taken = []) ∧
      bs.flatMap Block.text = source l.strays.flatten := by
  obtain ⟨h, role⟩ : ∃ h, Role.ofItem (tokensFrom p (Piece.precede above l.pieces)) = .type h := by
    have bare := Passage.role_precede ⟨l.pieces, []⟩ p above
    have isType := sound.isType
    rw [Passage.item] at bare
    rw [← bare] at isType
    cases found : Role.ofItem (tokensFrom p (Piece.precede above l.pieces)) with
    | type h => exact ⟨h, rfl⟩
    | _ => rw [found] at isType; cases isType
  have own := @Preceding.Breaks.own_type pre above (leadingGap l.pieces) h breaks sound.within
  have leading := Passage.leadingGap_precede above sound.ne_nil
  have after : pre.after (.type h) (Piece.precede above l.pieces) = .item := after_item rfl _ _
  obtain ⟨p', bs, blocks, rest, all, text⟩ := exists_blocks_strays sound.strays
    (positionFrom p (Piece.precede above l.pieces)) tail items
  refine ⟨h, pre.block (tokensFrom p (Piece.precede above l.pieces)) (.type h)
    (Piece.precede above l.pieces) (nextGap tail (l.strays ++ items)), bs, p', ?_, ?_, rfl, ?_, ?_,
    all, text⟩
  · rw [blocksFrom, role, after, blocks]
  · rw [restFrom, role, after, rest]
  · simp only [Preceding.block]
    rw [leading, breaks.kept_eq own]
  · simp only [Preceding.block]
    rw [leading, own, Passage.regap_precede]

theorem left_item (gap : Text) : Preceding.item.left gap = gap := rfl

theorem Ends.breaks (ends : l.Ends) : Preceding.item.Breaks l.gap :=
  ⟨ends.ends.ends, .inr ends.ends.line⟩

theorem parts_chain (sound : ∀ l ∈ ls, l.IsSound ∧ l.Ends) (breaks : ls ≠ [] → pre.Breaks above)
    (p : Position) :
    List.Forall₂ (fun part l => part.pieces = l.pieces ∧ part.trailing = l.behind)
        (partsFrom (restFrom pre p (last above ls) (chain above ls))
          (blocksFrom pre p (last above ls) (chain above ls))) ls ∧
      Block.ownedText (restFrom pre p (last above ls) (chain above ls))
        (blocksFrom pre p (last above ls) (chain above ls)) = pre.left above := by
  induction ls generalizing pre above p with
  | nil => exact ⟨.nil, rfl⟩
  | cons l ls ih =>
    rw [List.forall_mem_cons] at sound
    obtain ⟨h, b, bs, p', blocks, rest, role, kept, pieces, strays, text⟩ :=
      sound.1.1.exists_blocks (breaks (by simp)) p (last l.gap ls) (chain l.gap ls)
    obtain ⟨parts, owned⟩ := @ih .item l.gap sound.2 (fun _ => sound.1.2.breaks) p'
    rw [chain, last, blocks, rest]
    obtain ⟨noParts, owns, -⟩ := Block.owned_strays strays
      (restFrom .item p' (last l.gap ls) (chain l.gap ls))
      (blocksFrom .item p' (last l.gap ls) (chain l.gap ls))
    refine ⟨?_, ?_⟩
    · rw [partsFrom, role, noParts]
      refine .cons ⟨pieces, ?_⟩ parts
      rw [owns, text, owned, left_item, behind]
    · rw [Block.ownedText, role, kept]
      rfl

end Leaf

/-! ## Leaves behind imports -/

theorem last_importPassages_nil (imports : List (List Piece)) :
    Passage.last [] (importPassages imports)
      = if imports.isEmpty then [] else [ofChar '\n', ofChar '\n'] :=
  last_importPassages [] imports

theorem blank_left (pre : Preceding) (imports : List (List Piece)) :
    (∀ c ∈ pre.left (Passage.last [] (importPassages imports)), c.isBlank = true) ∧
      lastLine (pre.left (Passage.last [] (importPassages imports))) = [] := by
  rw [Preceding.left, last_importPassages_nil]
  generalize List.length _ = n
  split
  · simp
  · rcases n with _ | _ | n
    · exact ⟨by decide, by decide⟩
    · exact ⟨by decide, by decide⟩
    · simp

theorem leadingGap_chain_imports {lines : List Text} {imports : List (List Piece)}
    (all : List.Forall₂ IsImportLine lines imports) {above : Text}
    (ends : above = [] ∨ above = [ofChar '\n']) :
    ∀ ps ∈ Passage.chain above (importPassages imports),
      leadingGap ps = [] ∨ leadingGap ps = [ofChar '\n'] := by
  induction all generalizing above with
  | nil => simp [importPassages, Passage.chain]
  | @cons line ps lines imports isLine later ih =>
    have first : leadingGap (Piece.precede above ps) = above := by
      have more : ps ≠ [] := by
        rintro rfl
        exact isLine.closed.ne_nil rfl
      rw [Passage.leadingGap_precede above more, isLine.begins, List.append_nil]
    cases later with
    | nil =>
      intro qs mem
      rw [importPassages, Passage.chain, Passage.chain, List.mem_singleton] at mem
      rw [mem, first]
      exact ends
    | cons isNext later =>
      rw [importPassages, Passage.chain, List.forall_mem_cons, first]
      exact ⟨ends, ih (.inr rfl)⟩

section

variable {lines : List Text} {imports : List (List Piece)} {ls : List Leaf}

def sheet (lines : List Text) (ls : List Leaf) : Text :=
  importPart lines ++ ls.flatMap Leaf.text

/-- The items of imports and leaves, with what stands above the leaves. -/
def sheetItems (imports : List (List Piece)) (ls : List Leaf) : List (List Piece) :=
  Passage.chain [] (importPassages imports)
    ++ Leaf.chain (Passage.last [] (importPassages imports)) ls

def sheetTail (imports : List (List Piece)) (ls : List Leaf) : Text :=
  Leaf.last (Passage.last [] (importPassages imports)) ls

theorem scanned_sheet (all : List.Forall₂ IsImportLine lines imports)
    (sound : ∀ l ∈ ls, l.IsSound ∧ l.Ends) (plain : (sheet lines ls).IsPlain) :
    Scanned (sheet lines ls) (sheetItems imports ls) (sheetTail imports ls) ∧
      Placed (sheet lines ls) (sheetItems imports ls).flatten := by
  have whole : [] ++ (importPassages imports ++ ls.flatMap Leaf.passages).flatMap Passage.text
      = sheet lines ls := by
    rw [List.nil_append, List.flatMap_append, text_importPassages all, List.flatMap_assoc, sheet]
    simp only [Leaf.text_passages]
  have items : Passage.chain [] (importPassages imports ++ ls.flatMap Leaf.passages)
      = sheetItems imports ls := by
    rw [Passage.chain_append, Leaf.chain_passages, sheetItems]
  have tail : Passage.last [] (importPassages imports ++ ls.flatMap Leaf.passages)
      = sheetTail imports ls := by
    rw [Passage.last_append, Leaf.last_passages, sheetTail]
  rw [← whole] at plain ⊢
  rw [← items, ← tail]
  refine Passage.scanned_chain .nil (List.forall_mem_append.2
    ⟨isSound_importPassages all, fun x mem => ?_⟩) plain
  obtain ⟨l, inside, mem⟩ := List.mem_flatMap.1 mem
  exact (sound l inside).1.isSound_passages (sound l inside).2 x mem

theorem exists_blocks_sheet (all : List.Forall₂ IsImportLine lines imports) (ls : List Leaf) :
    ∃ pre p bs, blocksOf (sheetItems imports ls) (sheetTail imports ls)
        = bs ++ blocksFrom pre p (sheetTail imports ls)
          (Leaf.chain (Passage.last [] (importPassages imports)) ls) ∧
      restOf (sheetItems imports ls) (sheetTail imports ls)
        = restFrom pre p (sheetTail imports ls)
          (Leaf.chain (Passage.last [] (importPassages imports)) ls) ∧
      pre.Breaks (Passage.last [] (importPassages imports)) ∧
      (∀ b ∈ bs, b.role.isDirective = true) ∧
      (∀ c ∈ bs.flatMap Block.kept, c.isBlank = true) ∧
      lastLine (bs.flatMap Block.kept) = [] := by
  have directives : ∀ ps ∈ Passage.chain [] (importPassages imports),
      (Role.ofItem (ps.map Piece.token)).isDirective = true := by
    intro ps mem
    obtain ⟨x, inside, g, rfl⟩ := Passage.exists_of_mem_chain mem
    rw [token_precede]
    exact (isLine_importPassages all x inside).2.2
  have gaps := leadingGap_chain_imports all (.inl rfl)
  have apart : ∀ ps ∈ Passage.chain [] (importPassages imports), IsApart (leadingGap ps) :=
    fun ps isItem => (gaps ps isItem).elim (fun gap => .inr (by simp [gap]))
      fun gap => .inl (by simp [gap])
  obtain ⟨pre, p, bs, blocks, rest, begins, each, clears, ends⟩ := exists_blocks_cleared directives
    (fun ps isItem c mem => by
      rcases gaps ps isItem with gap | gap <;> rw [gap] at mem
      · cases mem
      · rw [List.mem_singleton.1 mem]
        decide)
    (.inl apart) (sheetTail imports ls) (Leaf.chain (Passage.last [] (importPassages imports)) ls)
  refine ⟨pre, p, bs, blocks, rest, ?_, each, clears.blank, ends apart⟩
  cases imports with
  | nil => exact ⟨rfl, .inl (begins rfl)⟩
  | cons ps imports =>
    rw [last_importPassages_nil]
    exact ⟨by simp; decide, .inr (by simp)⟩

/-- Whether the leaf is the type's part of the text. -/
structure Leaf.IsPartOf (u : CompilationUnit) (t : TypeDecl) (part : Part) (l : Leaf) : Prop where
  shows : Shows u t part
  ink : ∀ p ∈ part.pieces, p.IsInk
  read : part.item.IsRead
  pieces : part.pieces = l.pieces
  trailing : part.trailing = l.behind

theorem Scanned.isRead_part {code tail : Text} {items : List (List Piece)}
    (scanned : Scanned code items tail) (placed : Placed code items.flatten) {part : Part}
    (mem : part ∈ partsFrom (restOf items tail) (blocksOf items tail)) : part.item.IsRead := by
  obtain ⟨xs, b, ys, h, split, -, rfl⟩ := mem_partsFrom mem
  apply scanned.isRead placed
  rw [← item_blocksFrom .nothing .start tail items]
  exact List.mem_map_of_mem (by rw [blocksOf] at split; simp [split])

theorem Scanned.parts_read {code tail : Text} {items : List (List Piece)}
    (scanned : Scanned code items tail) (placed : Placed code items.flatten) :
    List.Forall₂ (fun t part => Shows (ofBlocks code (blocksOf items tail)) t part ∧
        (∀ p ∈ part.pieces, p.IsInk) ∧ part.item.IsRead)
      (ofBlocks code (blocksOf items tail)).types
      (partsFrom (restOf items tail) (blocksOf items tail)) := by
  have parts := scanned.parts placed
  refine List.forall₂_iff_zip.2 ⟨parts.length_eq, fun {t part} mem => ?_⟩
  have inside := (List.of_mem_zip mem).2
  exact ⟨(List.forall₂_iff_zip.1 parts).2 mem, scanned.isInk_part inside,
    scanned.isRead_part placed inside⟩

theorem tokens_sheet (imports : List (List Piece)) (ls : List Leaf) :
    (sheetItems imports ls).map (List.map Piece.token)
      = imports.map (List.map Piece.token)
        ++ (ls.flatMap Leaf.items).map (List.map Piece.token) := by
  rw [sheetItems, List.map_append, Passage.token_chain, ← Leaf.chain_passages,
    Passage.token_chain]
  congr 1
  · conv => rhs; rw [← pieces_importPassages imports, List.map_map]
    rfl
  · have pieces : (ls.flatMap Leaf.passages).map Passage.pieces = ls.flatMap Leaf.items := by
      rw [List.map_flatMap]
      exact List.flatMap_congr fun l _ => Passage.pieces_inLine l.gap l.items
    rw [← pieces, List.map_map]
    rfl

theorem imports_sheet (all : List.Forall₂ IsImportLine lines imports)
    (sound : ∀ l ∈ ls, l.IsSound ∧ l.Ends) (code : Text) :
    (ofBlocks code (blocksOf (sheetItems imports ls) (sheetTail imports ls))).imports
      = imports.map fun ps => .ofItem (ps.map Piece.token) := by
  have outlines := outlines_ofBlocks code (sheetItems imports ls) (sheetTail imports ls)
  have none : ((ls.flatMap Leaf.items).map (List.map Piece.token)).filterMap Item.import? = [] := by
    refine List.filterMap_eq_nil_iff.2 fun item mem => ?_
    obtain ⟨ps, isItem, rfl⟩ := List.mem_map.1 mem
    obtain ⟨l, inside, isItem⟩ := List.mem_flatMap.1 isItem
    exact (sound l inside).1.import?_eq_none ps isItem
  rw [← outlines_bare, bare_itemsFrom, tokens_sheet] at outlines
  rw [outlines.imports, List.filterMap_append, none, List.append_nil, List.filterMap_map]
  clear outlines none sound
  induction all with
  | nil => rfl
  | cons isLine _ ih =>
    have found := congrArg Role.import? isLine.role
    rw [List.filterMap_cons, Function.comp_apply, Item.import?, found, List.map_cons, ← ih]
    rfl

/-- A text of imports and leaves is parsed as these. -/
theorem exists_parse_sheet (all : List.Forall₂ IsImportLine lines imports)
    (sound : ∀ l ∈ ls, l.IsSound ∧ l.Ends) (plain : (sheet lines ls).IsPlain)
    (noReturn : ofChar '\r' ∉ sheet lines ls) :
    ∃ u, parse (sheet lines ls) = .ok u ∧
      u.imports = imports.map (fun ps => .ofItem (ps.map Piece.token)) ∧
      List.Forall₂ (fun t l => ∃ part, Leaf.IsPartOf u t part l) u.types ls := by
  obtain ⟨scanned, placed⟩ := scanned_sheet all sound plain
  obtain ⟨pre, p, bs, blocks, rest, breaks, directives, -, -⟩ := exists_blocks_sheet all ls
  refine ⟨_, parse_eq scanned placed (unifyBreaks_of_notMem noReturn),
    imports_sheet all sound _, ?_⟩
  have parts := scanned.parts_read placed
  have same := (Leaf.parts_chain sound (fun _ => breaks) p).1
  have leaves := congrArg₂ partsFrom rest blocks
  rw [partsFrom_append_directives directives] at leaves
  rw [leaves] at parts
  refine (forall₂_trans parts same).imp fun t l is => ?_
  obtain ⟨part, ⟨shows, ink, read⟩, pieces, trailing⟩ := is
  exact ⟨part, shows, ink, read, pieces, trailing⟩

/-- A text of imports and one leaf is parsed as these, and its body is the leaf. -/
theorem exists_parse_leaf {l : Leaf} (all : List.Forall₂ IsImportLine lines imports)
    (sound : l.IsSound ∧ l.Ends) (plain : (sheet lines [l]).IsPlain)
    (noReturn : ofChar '\r' ∉ sheet lines [l]) :
    ∃ u t part, parse (sheet lines [l]) = .ok u ∧
      u.imports = imports.map (fun ps => .ofItem (ps.map Piece.token)) ∧ u.types = [t] ∧
      Leaf.IsPartOf u t part l ∧ ∀ demoted, u.body demoted = trimBlankLines (Text.lines
        (source (part.header.bodyPieces demoted part.item part.pieces) ++ l.behind)) := by
  have sounds : ∀ l' ∈ [l], l'.IsSound ∧ l'.Ends := by simpa using sound
  obtain ⟨scanned, placed⟩ := scanned_sheet all sounds plain
  obtain ⟨pre, p, bs, blocks, rest, breaks, directives, blank, ends⟩ := exists_blocks_sheet all [l]
  obtain ⟨h, b, ss, p', leaf, rest', role, kept, pieces, strays, text⟩ :=
    sound.1.exists_blocks breaks p (sheetTail imports [l]) []
  have chain : Leaf.chain (Passage.last [] (importPassages imports)) [l]
      = Piece.precede (Passage.last [] (importPassages imports)) l.pieces :: (l.strays ++ []) := rfl
  rw [chain, rest'] at rest
  rw [chain, leaf] at blocks
  have rest : restOf (sheetItems imports [l]) (sheetTail imports [l]) = l.gap := rest
  have blocks : blocksOf (sheetItems imports [l]) (sheetTail imports [l]) = bs ++ b :: ss := by
    rw [blocks]
    simp [blocksFrom]
  obtain ⟨noParts, owns, turns⟩ := Block.owned_strays strays l.gap []
  rw [List.append_nil] at noParts owns
  have parts := scanned.parts_read placed
  have one : partsFrom (restOf (sheetItems imports [l]) (sheetTail imports [l]))
      (blocksOf (sheetItems imports [l]) (sheetTail imports [l]))
        = [⟨b.item, h, b.pieces, l.behind, Block.strays ss⟩] := by
    rw [rest, blocks, partsFrom_append_directives directives, partsFrom, role]
    simp only [noParts, owns, text, Leaf.behind, partsFrom, Block.ownedText]
  rw [one] at parts
  obtain ⟨t, types, ⟨shows, ink, read⟩, none, same⟩ := List.forall₂_cons_right_iff.1 parts
  obtain rfl := List.forall₂_nil_right_iff.1 none
  refine ⟨_, t, _, parse_eq scanned placed (unifyBreaks_of_notMem noReturn),
    imports_sheet all sounds _, same, ⟨shows, ink, read, pieces, rfl⟩, fun demoted => ?_⟩
  have front : bs.flatMap (Block.turned (Header.bodyPieces demoted)) = bs.flatMap Block.kept :=
    List.flatMap_congr fun b mem => Block.turned_directive (directives b mem) _
  have turned : (blocksOf (sheetItems imports [l]) (sheetTail imports [l])).flatMap
        (Block.turned (Header.bodyPieces demoted))
        ++ restOf (sheetItems imports [l]) (sheetTail imports [l])
      = (bs.flatMap Block.kept ++ b.kept)
        ++ (source (h.bodyPieces demoted b.item b.pieces) ++ l.behind) := by
    rw [rest, blocks, List.flatMap_append, front, List.flatMap_cons, turns, text, Block.turned,
      role, Leaf.behind]
    simp only [List.append_assoc]
  have above := blank_left pre imports
  rw [scanned.text_body placed, turned]
  refine trimBlankLines_append_lines (fun c mem => ?_) ?_ _
  · exact (List.mem_append.1 mem).elim (blank c) fun mem => above.1 c (kept ▸ mem)
  · rw [kept, lastLine_append, ends, above.2]
    split
    · rfl
    · rename_i none
      rw [List.nil_append, ← lastLine_of_noBreak none, above.2]

end

end JavaUnits
