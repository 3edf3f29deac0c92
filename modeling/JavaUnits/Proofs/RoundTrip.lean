import JavaUnits.Proofs.SplitMerges

/-!
Texts of declarations that are split and merged again. What comes back is the text in a normal form:
the imports that are left, sorted, then the types in their order, without their visibility, and at
the end the one with the entry point, which is public.
-/

namespace JavaUnits

open CodePoint Token Scan Text CompilationUnit

/-! ## Types that begin their lines -/

/-- Whether nothing but blanks stands before the type on its line. -/
def CompilationUnit.BeginsLine (u : CompilationUnit) (t : TypeDecl) : Prop :=
  ∃ n ∈ (Layout.ofText u.code).offset? t.header.first,
    isBlank (u.code.slice (u.code.lineStart n) n) = true

instance (u : CompilationUnit) (t : TypeDecl) : Decidable (u.BeginsLine t) :=
  inferInstanceAs (Decidable (∃ n ∈ _, _))

section

variable {pre : Preceding} {h : Header} {gap : Text}

theorem isGap_kept_of_blank (isGap : IsGap gap)
    (blank : ∀ c ∈ pre.own (.type h) gap, c.isBlank = true) :
    IsGap (pre.kept (.type h) gap) := by
  by_cases fresh : pre.isFresh gap = true
  · rcases @kept_ends pre (.type h) gap (by rw [Preceding.own, if_pos fresh]) with none | ends
    · rw [none]
      exact .nil
    · exact ((isGap_kept_own pre (.type h) isGap).of_append_blanks rfl blank).isGap ends
  · exact .of_blank fun c => isBlank_of_mem_kept (Bool.eq_false_iff.2 fresh)

end

section

variable {code tail : Text} {items : List (List Piece)}

theorem Spots.start_eq {layout : Layout} {start start' : Nat} {item : Item} {pieces : List Piece}
    (spots : Spots layout start item pieces) (spots' : Spots layout start' item pieces)
    (more : item ≠ []) : start = start' := by
  obtain ⟨t, rest, rfl⟩ := List.exists_cons_of_ne_nil more
  obtain ⟨ps, p, qs, here, none, -, -, place⟩ := spots [] t rest rfl
  obtain ⟨ps', p', qs', here', none', -, -, place'⟩ := spots' [] t rest rfl
  obtain rfl : ps = [] := by simpa using none
  obtain rfl : ps' = [] := by simpa using none'
  rw [here, List.nil_append, List.nil_append, List.cons.injEq] at here'
  rw [place, ← here'.1, Option.some.injEq] at place'
  omega

theorem Shows.blank_of_beginsLine {u : CompilationUnit} {t : TypeDecl} {part : Part}
    (shows : Shows u t part) (begins : u.BeginsLine t)
    (within : ofChar '\n' ∉ leadingGap part.pieces) :
    ∀ c ∈ leadingGap part.pieces, c.isBlank = true := by
  obtain ⟨n, offset, blank⟩ := begins
  obtain ⟨front, back, whole, start⟩ := shows.stands
  obtain ⟨rest, first⟩ :=
    List.head?_eq_some_iff.1 (Header.ofItem?_mem (Role.ofItem_eq_type shows.found)).1
  obtain ⟨ps, p, qs, pieces, none, -, -, place⟩ := shows.spots [] _ rest first
  obtain rfl : ps = [] := by simpa using none
  rw [List.nil_append] at pieces
  have length : n = (front ++ p.gap).length := by
    rw [shows.header, place, Option.mem_some] at offset
    rw [← offset, List.length_append, start, source_nil, List.length_nil, Nat.add_zero]
  rw [pieces, source_cons] at whole
  have split : u.code = (front ++ p.gap) ++ (p.lexeme ++ source qs ++ back) := by
    rw [whole]
    simp only [List.append_assoc]
  rw [split, length, lineStart_eq, slice_lineStart] at blank
  rw [pieces] at within ⊢
  have line : lastLine (front ++ p.gap) = lastLine front ++ p.gap := by
    rw [lastLine_append]
    exact if_neg within
  rw [line] at blank
  exact fun c mem => List.all_eq_true.1 blank c (List.mem_append_right _ mem)

theorem Scanned.text_before (scanned : Scanned code items tail) {xs ys : List Block} {b : Block}
    (split : blocksOf items tail = xs ++ b :: ys) :
    ∃ s, code = (xs.flatMap Block.text ++ b.kept) ++ s := by
  refine ⟨source b.pieces ++ b.taken ++ (ys.flatMap Block.text ++ restOf items tail), ?_⟩
  rw [scanned.text, split]
  simp [Block.text]

theorem Scanned.reads_before (scanned : Scanned code items tail)
    (closed : ∀ ps ∈ items, Item.IsClosed (ps.map Piece.token)) {xs ys : List Block} {b : Block}
    {h : Header} (split : blocksOf items tail = xs ++ b :: ys) (role : b.role = .type h)
    (blank : ∀ c ∈ leadingGap b.pieces, c.isBlank = true) :
    ∃ ts, Reads (xs.flatMap Block.text ++ b.kept) ts := by
  obtain ⟨s, whole⟩ := scanned.text_before split
  have plain := IsPlain.of_append (whole ▸ scanned.plain)
  obtain ⟨fronts, ps, backs, pre, rfl, rfl, before, -⟩ :=
    blocksFrom_eq_append scanned.nonempty split
  have more : ps ≠ [] := scanned.nonempty ps (by simp)
  rw [Preceding.taken_nothing, List.nil_append] at before
  have fits := scanned.fits
  rw [List.flatten_append, List.flatten_cons] at fits
  obtain ⟨fitsFront, fits⟩ := fits_append.1 fits
  have isGap : IsGap (leadingGap ps) := by
    obtain ⟨p, qs, rfl⟩ := List.exists_cons_of_ne_nil more
    exact (fits_append.1 fits).1.1
  have taken : IsGap (pre.taken (leadingGap ps)) := .of_blank fun c => isBlank_of_mem_taken
  simp only [Preceding.block] at blank role plain ⊢
  rw [leadingGap_regap _ more] at blank
  rw [role] at blank plain ⊢
  rw [before, List.append_assoc] at plain ⊢
  have fitsAny : ∀ qs ∈ fronts, ∀ s, Fits qs s := fun qs mem => by
    obtain ⟨s, fits⟩ := fitsFront.exists_of_mem mem
    exact fits.of_isClosed (closed qs (List.mem_append_left _ mem))
  exact ⟨_, _, _, rfl, fits_flatten fitsAny _,
    (taken.append (isGap_kept_of_blank isGap blank)).tail, plain, rfl⟩

/-- No type begins in a comment if all begin their lines. -/
theorem Scanned.isApart_of_begins (scanned : Scanned code items tail)
    (placed : Placed code items.flatten)
    (closed : ∀ ps ∈ items, Item.IsClosed (ps.map Piece.token))
    (begins : ∀ t ∈ (ofBlocks code (blocksOf items tail)).types,
      (ofBlocks code (blocksOf items tail)).BeginsLine t) :
    (ofBlocks code (blocksOf items tail)).IsApart := by
  intro t mem
  obtain ⟨part, isPart, shows⟩ := exists_right_of_mem (scanned.parts placed) mem
  have blank := shows.blank_of_beginsLine (begins t mem) (scanned.within_part isPart)
  have first := (Header.ofItem?_mem (Role.ofItem_eq_type shows.found)).1
  obtain ⟨xs, b, ys, h, split, role, rfl⟩ := mem_partsFrom isPart
  have start := shows.spots.start_eq (spots_blocksFrom placed scanned.nonempty split) (by
    intro none
    rw [none] at first
    cases first)
  obtain ⟨ts, reads⟩ := scanned.reads_before closed split role blank
  obtain ⟨s, whole⟩ := scanned.text_before split
  have front : code.take t.span.start = xs.flatMap Block.text ++ b.kept := by
    rw [start, ← List.length_append]
    exact (congrArg _ whole).trans List.take_left
  obtain ⟨tokens, read, -⟩ := tokenize_of_reads reads
  rw [show (ofBlocks code (blocksOf items tail)).code = code from rfl, front, read]
  rfl

end

theorem Declared.exists_of_mem {items : List Item} {item : Item} {h : Header} (mem : item ∈ items)
    (role : Role.ofItem item = .type h) : ∃ d ∈ ofItems items, d.item = item := by
  induction items with
  | nil => cases mem
  | cons first items ih =>
    rcases List.mem_cons.1 mem with rfl | mem
    · rw [ofItems, role]
      exact ⟨_, List.mem_cons_self, rfl⟩
    · obtain ⟨d, inside, same⟩ := ih mem
      refine ⟨d, ?_, same⟩
      rw [ofItems]
      split
      · exact List.mem_cons_of_mem _ inside
      · exact inside

/-! ## Sources that can be split -/

theorem Item.IsDeclaration.role_ne_stray {item : Item} (declares : item.IsDeclaration) :
    Role.ofItem item ≠ .stray := by
  rcases declares with package | imports | ⟨d, sound, rfl⟩
  · simp [package.role]
  · simp [imports.role]
  · simp [sound.role]

theorem Item.IsDeclaration.isTypeDeclaration {item : Item} {h : Header}
    (declares : item.IsDeclaration) (role : Role.ofItem item = .type h) :
    item.IsTypeDeclaration := by
  rcases declares with package | imports | declares
  · rw [package.role] at role
    cases role
  · rw [imports.role] at role
    cases role
  · exact declares

theorem Shows.detaches_published {u : CompilationUnit} {t : TypeDecl} {part : Part}
    (shows : Shows u t part) (ink : ∀ p ∈ part.pieces, p.IsInk)
    (declares : part.item.IsTypeDeclaration) : (part.header.publish part.item).Detaches := by
  obtain ⟨d, sound, item⟩ := declares
  have tokens := shows.tokens
  rw [item, ← TypeSyntax.tokens_bare] at tokens
  obtain ⟨w, pieces, -, declares⟩ :=
    Written.exists_declares ((TypeSyntax.isSound_bare d).2 sound) tokens []
  obtain ⟨ms, published, -⟩ := declares.published
  rw [← Item.detaches_bare, ← Header.token_publishPieces shows.tokens,
    (shows.edited_written ink pieces.symm declares).1, published.tokens]
  exact published.sound.detaches

namespace Text.IsSource

variable {s : Text} {u : CompilationUnit}

/-- A source whose types begin their lines can be split. -/
theorem isSeparable (isSource : s.IsSource) (parsed : parse s = .ok u)
    (begins : ∀ t ∈ u.types, u.BeginsLine t) (loose : ∀ t ∈ u.types, u.IsLoose t) :
    s.IsSeparable u := by
  have isWhole := isSource.isWhole parsed
  obtain ⟨items, tail, scanned, placed, whole, same⟩ :=
    isWhole.legible.toIsPlaced.exists_scanned parsed
  have declarations := partsFrom_blocksFrom .nothing .start tail items (restOf items tail)
  rw [← same] at declarations
  refine ⟨isWhole.legible.plain, isSource.solid, isWhole.closed, isWhole.legible.returns,
    fun item mem => ?_, ?_, loose⟩
  · cases role : Role.ofItem item with
    | type h =>
      obtain ⟨d, declared, rfl⟩ := Declared.exists_of_mem mem role
      rw [← declarations] at declared
      obtain ⟨part, isPart, rfl⟩ := List.mem_map.1 declared
      obtain ⟨t, -, shows, ink, -⟩ := exists_left_of_mem (scanned.parts_read placed) isPart
      have published : part.item.published = part.header.publish part.item := by
        rw [Item.published, Item.header?, shows.found]
        rfl
      rw [published]
      exact shows.detaches_published ink ((isSource.declares _ mem).isTypeDeclaration role)
    | _ =>
      have published : item.published = item := by
        rw [Item.published, Item.header?, role]
        rfl
      rw [published]
      exact (isSource.declares item mem).detaches
  · rw [whole] at begins ⊢
    refine scanned.isApart_of_begins placed (fun ps mem => ?_) begins
    obtain ⟨item, inside, bare⟩ := @mem_itemsFrom .start items ps mem
    rw [← bare, Item.isClosed_bare]
    exact isWhole.closed item (same ▸ inside)

theorem names_import (isSource : s.IsSource) (parsed : parse s = .ok u) :
    ∀ i ∈ u.imports, i.names = [] := by
  have isPlaced := isSource.isPlaced parsed
  obtain ⟨items, tail, scanned, -, -, same⟩ := isPlaced.exists_scanned parsed
  intro i mem
  rw [isPlaced.imports_eq parsed] at mem
  obtain ⟨item, inside, found⟩ := List.mem_filterMap.1 mem
  have reads := scanned.reads_import (same ▸ inside)
    ((isSource.isWhole parsed).legible.returns item inside) found
  have quiet := isSource.declaresAlike.quiet item inside (by
    rw [(Item.import?_eq_some found).1]
    rfl)
  rw [Import.names, reads.read_eq]
  exact (collect_bare none item).trans quiet

theorem mem_names (isSource : s.IsSource) (parsed : parse s = .ok u) (separable : s.IsSeparable u)
    {names : List Text} (declared : declaredNames s = .ok names) (n : Text) :
    n ∈ names ↔ ∃ t ∈ u.types, n ∈ u.names t := by
  have leaves := separable.exists_leaves parsed
  have each {t : TypeDecl} {part : Part} {l : Leaf} {d : Declared}
      (inside : d ∈ Declared.ofItems s.items) (turns : Leaf.Turns u t part l)
      (item : part.item = d.item)
      (strays : l.strays.map (List.map Piece.token) = d.strays.map (List.map Token.bare)) :
      u.names t = declaredNames.collect none d.item := by
    have none : d.strays = [] := by
      refine List.eq_nil_iff_forall_not_mem.2 fun stray mem => ?_
      obtain ⟨isItem, role⟩ := (Declared.mem_ofItems inside).2.2 stray mem
      exact (isSource.declares stray isItem).role_ne_stray role
    rw [none] at strays
    rw [turns.names_eq, Leaf.names, Leaf.tokens, Leaf.items, List.map_cons, strays, List.map_nil,
      List.flatMap_singleton, ← turns.pieces, turns.shows.tokens, item]
    exact collect_bare .none d.item
  have names := isSource.declaresAlike.names_eq (isSource.isWhole parsed).legible parsed
  rw [declared, Except.ok.injEq] at names
  rw [names, List.mem_flatMap]
  constructor
  · rintro ⟨item, inside, mem⟩
    cases role : Role.ofItem item with
    | type h =>
      obtain ⟨d, isDeclared, rfl⟩ := Declared.exists_of_mem inside role
      obtain ⟨t, isType, part, l, turns, item, strays⟩ := exists_left_of_mem leaves isDeclared
      exact ⟨t, isType, each isDeclared turns item strays ▸ mem⟩
    | stray => exact absurd role (isSource.declares item inside).role_ne_stray
    | _ =>
      rw [isSource.declaresAlike.quiet item inside (by rw [role]; rfl)] at mem
      cases mem
  · rintro ⟨t, isType, mem⟩
    obtain ⟨d, isDeclared, part, l, turns, item, strays⟩ := exists_right_of_mem leaves isType
    rw [each isDeclared turns item strays] at mem
    exact ⟨d.item, (Declared.mem_ofItems isDeclared).1, mem⟩

end Text.IsSource

theorem Text.IsSource.exists_parse {s : Text} {tokens : List Token} (isSource : s.IsSource)
    (read : tokenize s = .ok tokens) : ∃ u, parse s = .ok u := by
  obtain ⟨plain, noReturn, solid, -⟩ := (isSource_iff read).1 isSource
  have reads := reads_of_tokenize plain read
  obtain ⟨-, -, u, parsed, -⟩ := reads.exists_parse noReturn fun t mem => by
    obtain ⟨t, isToken, rfl⟩ := List.mem_map.1 mem
    exact solid t isToken
  exact ⟨u, parsed⟩

theorem CompilationUnit.mem_definedBy {u : CompilationUnit} {ts : List TypeDecl} {n : Text}
    (quiet : ∀ i ∈ u.imports, i.names = []) :
    n ∈ u.definedBy ts ↔ ∃ t ∈ ts, n ∈ u.names t := by
  rw [definedBy, List.flatMap_eq_nil_iff.2 quiet]
  simp

theorem CompilationUnit.importLines_congr {names defined : List Text} (u : CompilationUnit)
    (same : ∀ n, n ∈ names ↔ n ∈ defined) : u.importLines names = u.importLines defined := by
  rw [importLines, importLines]
  congr 3
  exact List.filter_congr fun i _ => by rw [Import.isSelf_congr same]

/-- A source of which one type declares a main method, split and merged again, is its normal form
under every policy: the imports that reach for none of its types, sorted, the other types in their
order without their visibility, and then that type, which is public. -/
theorem merge_split {s : Text} {tokens : List Token} (isSource : s.IsSource)
    (read : tokenize s = .ok tokens) {asked : Option Text} {configured : Text} {p : Policy}
    (policy : Merge.policy asked configured = .ok p) :
    ∃ u, parse s = .ok u ∧ ∀ before m after, u.types = before ++ m :: after →
      (u.types.map TypeDecl.name).Nodup → (∀ t ∈ u.types, u.BeginsLine t ∧ u.IsLoose t) →
      m.header.declaresMain = true → (∀ t ∈ before ++ after, t.header.declaresMain = false) →
      ∃ names result r, declaredNames s = .ok names ∧ split s = .ok result ∧
        merge result.files asked configured = .ok r ∧
        r.content = u.joined (u.importLines names) (before ++ after) m ∧
        r.mainClassName = m.name ∧ r.demotedEntryPoints = [] := by
  obtain ⟨u, parsed⟩ := isSource.exists_parse read
  refine ⟨u, parsed, fun before m after types distinct lines main others => ?_⟩
  have separable := isSource.isSeparable parsed (fun t mem => (lines t mem).1)
    fun t mem => (lines t mem).2
  have separates := separable.separates parsed
  have names := isSource.declaresAlike.names_eq (isSource.isWhole parsed).legible parsed
  have files : (SplitFiles.ofUnit u).files = (before ++ m :: after).map (SplitFiles.file u) := by
    rw [SplitFiles.files_ofUnit distinct, types]
    rfl
  have inside : ∀ t ∈ before ++ m :: after, t ∈ u.types := fun t mem => types ▸ mem
  have made (defined : List Text) : Merge.Choice.make p
      ((before ++ m :: after).map (u.extract defined)) = .ok (u.choice defined before m after) := by
    rw [List.map_append, List.map_cons]
    refine Merge.Choice.make_of_alone p ((u.isCandidate_extract defined m).trans main) ?_
    intro e mem
    rw [← List.map_append] at mem
    obtain ⟨t, other, rfl⟩ := List.mem_map.1 mem
    exact (u.isCandidate_extract defined t).trans (others t other)
  have apart : (before ++ after).filter (fun t => t.header.declaresMain) = [] :=
    List.filter_eq_nil_iff.2 fun t mem => by rw [others t mem]; simp
  have shown : ∀ t ∈ before ++ after, u.hiddenBody t ≠ [] := fun t mem =>
    separates.hiddenBody_ne_nil
      (inside t (((List.sublist_cons_self m after).append_left before).subset mem))
  refine ⟨_, _, u.merged before m after, names, by rw [split, parsed]; rfl, ?_, ?_,
    mainClassName_merged main, ?_⟩
  · rw [files]
    exact separates.merge_files inside policy made
  · rw [content_merged shown, imports_merged]
    congr 1
    refine u.importLines_congr fun n => ?_
    rw [isSource.mem_names parsed separable names, types,
      mem_definedBy (isSource.names_import parsed)]
  · rw [demotedEntryPoints_merged, apart]
    rfl

/-- A text whose first type declares a main method, with an import of its second. -/
def housemates : Text :=
  "package p;\nimport q.R;\nimport p.A;\n\n// main\npublic final class B \x7b\n"
    ++ "  public static void main(String[] a) \x7b\x7d\n\x7d\npublic class A \x7b\x7d // last\n"

theorem isSource_housemates : housemates.IsSource := by
  obtain ⟨items, types⟩ : housemates.items.take 3
      = [[⟨.keyword, "package", ⟨1, 1⟩⟩, ⟨.identifier, "p", ⟨1, 9⟩⟩, ⟨.separator, ";", ⟨1, 10⟩⟩],
        [⟨.keyword, "import", ⟨2, 1⟩⟩, ⟨.identifier, "q", ⟨2, 8⟩⟩, ⟨.separator, ".", ⟨2, 9⟩⟩,
          ⟨.identifier, "R", ⟨2, 10⟩⟩, ⟨.separator, ";", ⟨2, 11⟩⟩],
        [⟨.keyword, "import", ⟨3, 1⟩⟩, ⟨.identifier, "p", ⟨3, 8⟩⟩, ⟨.separator, ".", ⟨3, 9⟩⟩,
          ⟨.identifier, "A", ⟨3, 10⟩⟩, ⟨.separator, ";", ⟨3, 11⟩⟩]] ∧
      (housemates.items.drop 3).map (List.map Token.bare)
        = [neighbourB.bare.tokens, neighbourA.bare.tokens] := by
    rw [housemates, ofString_ofList, ofString_ofList]
    decide +kernel
  obtain ⟨plain, noReturn, solid⟩ : housemates.IsPlain ∧ ofChar '\r' ∉ housemates ∧
      ∀ item ∈ housemates.items, ∀ t ∈ item, ofChar '\n' ∉ t.value := by
    rw [housemates, ofString_ofList, ofString_ofList]
    decide +kernel
  have declares {d : TypeSyntax} (sound : d.IsSound) {item : Item}
      (same : item.map Token.bare = d.bare.tokens) : item.IsDeclaration := by
    obtain ⟨d', rfl, bare⟩ := TypeSyntax.exists_bare same
    exact .inr (.inr ⟨d', by rwa [← TypeSyntax.isSound_bare, bare, TypeSyntax.isSound_bare], rfl⟩)
  refine ⟨plain, noReturn, solid, ?_⟩
  rw [← List.take_append_drop 3 housemates.items, List.forall_mem_append, items]
  constructor
  · simp only [List.forall_mem_cons]
    refine ⟨.inl ⟨_, [_], _, rfl, by decide, by decide, by decide⟩, .inr (.inl ?_),
      .inr (.inl ?_), by simp⟩ <;>
    exact ⟨_, [], _ :: _ :: [_], [], _, rfl, by decide, .inl rfl, by decide, .inl rfl, by decide⟩
  · intro item mem
    have bare := List.mem_map_of_mem (f := List.map Token.bare) mem
    rw [types, List.mem_cons, List.mem_singleton] at bare
    rcases bare with same | same
    · exact declares isSound_neighbourB same
    · exact declares isSound_neighbourA same

theorem merge_split_housemates : ∃ u, parse housemates = .ok u ∧
    ∃ m t, u.types = [m, t] ∧ ∃ names result r, declaredNames housemates = .ok names ∧
      split housemates = .ok result ∧ merge result.files none "fail" = .ok r ∧
      r.content = u.joined (u.importLines names) [t] m ∧ r.mainClassName = m.name ∧
      r.demotedEntryPoints = [] := by
  obtain ⟨reads, u', parsed', distinct, lines, mains⟩ : (tokenize housemates).toOption.isSome ∧
      ∃ u ∈ (parse housemates).toOption, (u.types.map TypeDecl.name).Nodup ∧
        (∀ t ∈ u.types, u.BeginsLine t ∧ u.IsLoose t) ∧
        u.types.map (fun t => t.header.declaresMain) = [true, false] := by
    rw [housemates, ofString_ofList, ofString_ofList]
    decide +kernel
  obtain ⟨tokens, read⟩ := exists_eq_ok reads
  obtain ⟨u, parsed, round⟩ :=
    @merge_split _ _ isSource_housemates read none "fail" .fail rfl
  obtain rfl := Except.ok.inj (parsed.symm.trans (toOption_eq_some.1 parsed'))
  obtain ⟨m, rest, types, main, others⟩ := List.map_eq_cons_iff.1 mains
  obtain ⟨t, none, rfl, other, rest⟩ := List.map_eq_cons_iff.1 others
  obtain rfl := List.map_eq_nil_iff.1 rest
  exact ⟨u, parsed, m, t, types, round [] m [t] types distinct lines main (by simpa using other)⟩

end JavaUnits
