import JavaUnits.Proofs.Bodies
import JavaUnits.Proofs.SplitTokens

/-!
The content of a merge by its tokens. It has the tokens of the imports, then those that the sources
leave: first those of the sources that are not chosen, which are demoted, then those of the chosen
one.
-/

namespace JavaUnits

open CodePoint Token Scan Text CompilationUnit

section

variable {α β : Type} {relates : α → β → Prop} {as : List α} {bs : List β}

theorem exists_left_of_mem (all : List.Forall₂ relates as bs) {b : β} (mem : b ∈ bs) :
    ∃ a ∈ as, relates a b := by
  induction all with
  | nil => cases mem
  | cons first _ ih =>
    rcases List.mem_cons.1 mem with rfl | mem
    · exact ⟨_, List.mem_cons_self, first⟩
    · obtain ⟨a, inside, here⟩ := ih mem
      exact ⟨a, List.mem_cons_of_mem _ inside, here⟩

theorem exists_right_of_mem (all : List.Forall₂ relates as bs) {a : α} (mem : a ∈ as) :
    ∃ b ∈ bs, relates a b :=
  exists_left_of_mem all.flip mem

theorem exists_split_left {front back : List β} {b : β}
    (all : List.Forall₂ relates as (front ++ b :: back)) :
    ∃ xs a ys, as = xs ++ a :: ys ∧ List.Forall₂ relates xs front ∧ relates a b ∧
      List.Forall₂ relates ys back := by
  obtain ⟨a, ys, first, later, split⟩ :=
    List.forall₂_cons_right_iff.1 (List.forall₂_drop_append _ _ _ all)
  refine ⟨_, a, ys, ?_, List.forall₂_take_append _ _ _ all, first, later⟩
  rw [← split, List.take_append_drop]

theorem exists_forall₂ (all : ∀ b ∈ bs, ∃ a, relates a b) : ∃ as, List.Forall₂ relates as bs := by
  induction bs with
  | nil => exact ⟨[], .nil⟩
  | cons b bs ih =>
    rw [List.forall_mem_cons] at all
    obtain ⟨a, first⟩ := all.1
    obtain ⟨as, later⟩ := ih all.2
    exact ⟨a :: as, .cons first later⟩

theorem forall₂_trans {γ : Type} {relates' : β → γ → Prop} {cs : List γ}
    (all : List.Forall₂ relates as bs) (all' : List.Forall₂ relates' bs cs) :
    List.Forall₂ (fun a c => ∃ b, relates a b ∧ relates' b c) as cs := by
  induction all generalizing cs with
  | nil =>
    cases all'
    exact .nil
  | cons first _ ih =>
    cases all' with
    | cons first' later' => exact .cons ⟨_, first, first'⟩ (ih later')

end

/-! ## The choice -/

namespace Merge.Choice

variable {es : List Extract} {c : Choice} {p : Policy}

def all (c : Choice) : List Extract :=
  c.before ++ c.chosen :: c.after

theorem first?_eq_some (found : first? es = some c) :
    c.all = es ∧ c.chosen.isCandidate = true ∧ ∀ e ∈ c.before, e.isCandidate = false := by
  induction es generalizing c with
  | nil => cases found
  | cons e es ih =>
    rw [first?] at found
    split at found
    · rename_i candidate
      rw [← Option.some.inj found]
      exact ⟨rfl, candidate, by simp⟩
    · rename_i other
      obtain ⟨c', later, rfl⟩ := Option.map_eq_some_iff.1 found
      obtain ⟨all, candidate, before⟩ := ih later
      refine ⟨?_, candidate, List.forall_mem_cons.2 ⟨Bool.eq_false_iff.2 other, before⟩⟩
      rw [← all]
      rfl

theorem last?_eq_some (found : last? es = some c) :
    c.all = es ∧ c.chosen.isCandidate = true ∧ ∀ e ∈ c.after, e.isCandidate = false := by
  obtain ⟨c', turned, rfl⟩ := Option.map_eq_some_iff.1 found
  obtain ⟨all, candidate, before⟩ := first?_eq_some turned
  refine ⟨?_, candidate, fun e mem => before e (List.mem_reverse.1 mem)⟩
  rw [Choice.all, ← List.reverse_reverse es, ← all, Choice.all]
  simp

structure Suits (p : Policy) (es : List Extract) (c : Choice) : Prop where
  all : c.all = es
  candidate : c.chosen.isCandidate = true
  first : p = .first → ∀ e ∈ c.before, e.isCandidate = false
  last : p ≠ .first → ∀ e ∈ c.after, e.isCandidate = false
  alone : p = .fail → ∀ e ∈ c.others, e.isCandidate = false

theorem suits_of_make (made : make p es = .ok c) : c.Suits p es := by
  rw [make] at made
  split at made
  · cases made
  rename_i few
  split at made
  case h_2 => cases made
  rename_i c' found
  obtain rfl := Except.ok.inj made
  by_cases isFirst : p = .first
  · rw [if_pos isFirst] at found
    obtain ⟨all, candidate, before⟩ := first?_eq_some found
    exact ⟨all, candidate, fun _ => before, fun other => absurd isFirst other,
      fun isFail => by rw [isFirst] at isFail; cases isFail⟩
  · rw [if_neg isFirst] at found
    obtain ⟨all, candidate, after⟩ := last?_eq_some found
    refine ⟨all, candidate, fun is => absurd is isFirst, fun _ => after, fun isFail e mem => ?_⟩
    rcases List.mem_append.1 mem with mem | mem
    · -- A second candidate before the chosen one would have been refused.
      rw [Bool.eq_false_iff]
      intro other
      obtain ⟨xs, ys, before⟩ := List.append_of_mem mem
      apply few
      refine ⟨isFail, ?_⟩
      obtain ⟨n, name⟩ := Option.isSome_iff_exists.1 other
      obtain ⟨m, main⟩ := Option.isSome_iff_exists.1 candidate
      rw [← all, Choice.all, before]
      simp [List.filterMap_append, Extract.candidate?, name, main]
      omega
    · exact after e mem

theorem first?_append {before after : List Extract} {e : Extract} (candidate : e.isCandidate = true)
    (none : ∀ e ∈ before, e.isCandidate = false) :
    first? (before ++ e :: after) = some ⟨before, e, after⟩ := by
  induction before with
  | nil => rw [List.nil_append, first?, if_pos candidate]
  | cons e' before ih =>
    rw [List.forall_mem_cons] at none
    rw [List.cons_append, first?, if_neg (by simp [none.1]), ih none.2]
    rfl

theorem make_of_alone {before after : List Extract} {e : Extract} (p : Policy)
    (candidate : e.isCandidate = true) (none : ∀ e ∈ before ++ after, e.isCandidate = false) :
    make p (before ++ e :: after) = .ok ⟨before, e, after⟩ := by
  rw [List.forall_mem_append] at none
  have nothing {es : List Extract} (none : ∀ e ∈ es, e.isCandidate = false) :
      es.filterMap Extract.candidate? = [] := by
    refine List.filterMap_eq_nil_iff.2 fun e mem => ?_
    have other := none e mem
    rw [Extract.isCandidate, Option.isSome_eq_false_iff, Option.isNone_iff_eq_none] at other
    rw [Extract.candidate?, other]
    rfl
  have few : ((before ++ e :: after).filterMap Extract.candidate?).length ≤ 1 := by
    have first := List.length_filterMap_le Extract.candidate? [e]
    have split : before ++ e :: after = before ++ ([e] ++ after) := rfl
    rw [split, List.filterMap_append, List.filterMap_append, nothing none.1, nothing none.2]
    simpa using first
  have isFirst : first? (before ++ e :: after) = some ⟨before, e, after⟩ :=
    first?_append candidate none.1
  have isLast : last? (before ++ e :: after) = some ⟨before, e, after⟩ := by
    have turned : first? (after.reverse ++ e :: before.reverse) =
        some ⟨after.reverse, e, before.reverse⟩ :=
      first?_append candidate fun e mem => none.2 e (List.mem_reverse.1 mem)
    have reversed : (before ++ e :: after).reverse = after.reverse ++ e :: before.reverse := by simp
    rw [last?, reversed, turned]
    simp
  rw [make, if_neg (by omega)]
  by_cases is : p = .first
  · rw [if_pos is, isFirst]
  · rw [if_neg is, isLast]

theorem mem_all {e : Extract} : e ∈ c.all ↔ e ∈ c.others ∨ e = c.chosen := by
  simp only [all, others, List.mem_append, List.mem_cons]
  tauto

end Merge.Choice

/-- What has been taken from each of the sources. -/
def Merge.Extracted (sources : Files) (defined : List Text) (es : List Extract) : Prop :=
  List.Forall₂ (fun file e => ∃ u, parse file.2 = .ok u ∧ e = .ofUnit file.1 defined u) sources es

/-- A merge that succeeds has read all sources and chosen one of them. -/
theorem merge_eq_ok {sources : Files} {asked : Option Text} {configured : Text} {r : Merged}
    (merged : merge sources asked configured = .ok r) :
    ∃ (p : Policy) (defined : List Text) (extracts : List Extract) (c : Merge.Choice),
      Merge.policy asked configured = .ok p ∧ Merge.definedNames sources = .ok defined ∧
      Merge.Extracted sources defined extracts ∧ c.Suits p extracts ∧
        r = Merge.ofChoice extracts c := by
  obtain ⟨p, policy, merged⟩ := bind_eq_ok.1 merged
  dsimp only at merged
  split at merged
  · cases merged
  obtain ⟨extracts, extracted, merged⟩ := bind_eq_ok.1 merged
  obtain ⟨c, made, same⟩ := bind_eq_ok.1 merged
  obtain ⟨defined, names, extracted⟩ := bind_eq_ok.1 (mapError_eq_ok.1 extracted)
  refine ⟨p, defined, extracts, c, policy, names, ?_, Merge.Choice.suits_of_make made,
    (Except.ok.inj same).symm⟩
  refine (mapM_eq_ok.1 extracted).imp fun file e made => ?_
  obtain ⟨u, parsed, same⟩ := bind_eq_ok.1 made
  exact ⟨u, parsed, (Except.ok.inj same).symm⟩

/-- A merge whose sources are read succeeds if one of them can be chosen. -/
theorem merge_of_extracted {sources : Files} {asked : Option Text} {configured : Text} {p : Policy}
    {defined : List Text} {es : List Extract} {c : Merge.Choice}
    (policy : Merge.policy asked configured = .ok p) (more : sources ≠ [])
    (names : Merge.definedNames sources = .ok defined)
    (extracted : Merge.Extracted sources defined es)
    (made : Merge.Choice.make p es = .ok c) :
    merge sources asked configured = .ok (Merge.ofChoice es c) := by
  have each : sources.mapM (fun file => Extract.ofSource defined file.1 file.2) = .ok es := by
    refine mapM_eq_ok.2 (extracted.imp fun file e given => ?_)
    obtain ⟨u, parsed, rfl⟩ := given
    exact bind_eq_ok.2 ⟨u, parsed, rfl⟩
  refine bind_eq_ok.2 ⟨p, policy, ?_⟩
  dsimp only
  rw [if_neg (by simpa using more)]
  exact bind_eq_ok.2 ⟨es, mapError_eq_ok.2 (bind_eq_ok.2 ⟨defined, names, each⟩),
    bind_eq_ok.2 ⟨c, made, rfl⟩⟩

theorem definedNames_eq_ok {sources : Files} {defined : List Text}
    (found : Merge.definedNames sources = .ok defined) :
    ∃ names, List.Forall₂ (fun file names => declaredNames file.2 = .ok names) sources names ∧
      defined = names.flatten := by
  obtain ⟨names, all, same⟩ := bind_eq_ok.1 found
  refine ⟨names, (mapM_eq_ok.1 all).imp fun file names found => ?_, (Except.ok.inj same).symm⟩
  cases declared : declaredNames file.2 with
  | error e => simp [declared] at found
  | ok names' => simpa [declared] using found

theorem definedNames_of_declared {sources : Files} {names : List (List Text)}
    (declared : List.Forall₂ (fun file names => declaredNames file.2 = .ok names) sources names) :
    Merge.definedNames sources = .ok names.flatten := by
  refine bind_eq_ok.2 ⟨names, mapM_eq_ok.2 (declared.imp fun file ns declares => ?_), rfl⟩
  simp only [declares]

/-! ## Bodies -/

namespace CompilationUnit

def body (demoted : Bool) (u : CompilationUnit) : List Text :=
  if demoted then u.demotedBody else u.bodyLines []

end CompilationUnit

theorem mem_partsFrom {rest : Text} {bs : List Block} {part : Part}
    (mem : part ∈ partsFrom rest bs) :
    ∃ xs b ys h, bs = xs ++ b :: ys ∧ b.role = .type h ∧
      part = ⟨b.item, h, b.pieces, Block.ownedText rest ys, Block.strays ys⟩ := by
  induction bs with
  | nil => simp [partsFrom] at mem
  | cons b bs ih =>
    have later (mem : part ∈ partsFrom rest bs) :
        ∃ xs b' ys h, b :: bs = xs ++ b' :: ys ∧ b'.role = .type h ∧
          part = ⟨b'.item, h, b'.pieces, Block.ownedText rest ys, Block.strays ys⟩ := by
      obtain ⟨xs, b', ys, h, split, rest⟩ := ih mem
      exact ⟨b :: xs, b', ys, h, by rw [split]; rfl, rest⟩
    rw [partsFrom] at mem
    split at mem
    · rename_i h role
      rcases List.mem_cons.1 mem with rfl | mem
      · exact ⟨[], b, bs, h, rfl, role, rfl⟩
      · exact later mem
    · exact later mem

theorem isInk_of_regap {ps : List Piece} {gap : Text} (ink : ∀ p ∈ regap gap ps, p.IsInk) :
    ∀ p ∈ ps, p.IsInk := by
  cases ps with
  | nil => simp
  | cons p ps =>
    have all := List.forall_mem_cons.1 ink
    exact List.forall_mem_cons.2 ⟨all.1, all.2⟩

section

variable {code tail : Text} {items : List (List Piece)}

theorem Scanned.isInk_part (scanned : Scanned code items tail) {part : Part}
    (mem : part ∈ partsFrom (restOf items tail) (blocksOf items tail)) :
    ∀ p ∈ part.pieces, p.IsInk := by
  obtain ⟨xs, b, ys, h, split, role, rfl⟩ := mem_partsFrom mem
  rcases (scanned.stands split).fits (by rw [role]; rfl) with fits | ⟨-, fits⟩
  · exact isInk_of_regap (fits []).isInk
  · exact isInk_of_regap fits.isInk

theorem Scanned.isRead (scanned : Scanned code items tail) (placed : Placed code items.flatten) :
    ∀ item ∈ itemsFrom .start items, item.IsRead := by
  have all : (itemsFrom .start items).flatten.Nodup := by
    rw [flatten_itemsFrom]
    exact placed.nodup fun p mem => (scanned.fits.isInk p mem).ne_nil
  have words := @Header.words_of_fits (itemsFrom .start items).flatten _ _ scanned.fits (by
    rw [flatten_itemsFrom, bare_tokensFrom])
  exact fun item mem => ⟨(List.nodup_flatten.1 all).1 item mem,
    fun t inside => words t (List.mem_flatten.2 ⟨item, mem, inside⟩)⟩

theorem Scanned.text_body (scanned : Scanned code items tail)
    (placed : Placed code items.flatten) (demoted : Bool) :
    (ofBlocks code (blocksOf items tail)).body demoted
      = trimBlankLines (lines ((blocksOf items tail).flatMap
          (Block.turned (Header.bodyPieces demoted)) ++ restOf items tail)) := by
  have sound := isSound_blocksFrom scanned.fits scanned.nonempty .nothing .start
  have shows := scanned.parts placed
  cases demoted with
  | true =>
    have text : (ofBlocks code (blocksOf items tail)).text ⟨0, code.length⟩
        ((ofBlocks code (blocksOf items tail)).types.filterMap (stripPublicEdit? code))
        = (blocksOf items tail).flatMap (Block.turned (Header.bodyPieces true))
          ++ restOf items tail :=
      text_ofBlocks sound scanned.text (List.forall₂_iff_zip.2 ⟨shows.length_eq, fun mem =>
        ((List.forall₂_iff_zip.1 shows).2 mem).edited_strip
          (scanned.isInk_part (List.of_mem_zip mem).2)⟩)
    rw [← text]
    rfl
  | false =>
    have text : (ofBlocks code (blocksOf items tail)).text ⟨0, code.length⟩
        ((ofBlocks code (blocksOf items tail)).types.filterMap fun _ => none)
        = (blocksOf items tail).flatMap (Block.turned (Header.bodyPieces false))
          ++ restOf items tail :=
      text_ofBlocks sound scanned.text (shows.imp fun t part _ => edited_nil _ _)
    rw [← text, List.filterMap_none]
    rfl

/-- A body is read as what the items leave of it. -/
theorem Scanned.reads_body (scanned : Scanned code items tail) (placed : Placed code items.flatten)
    {demoted : Bool}
    (detaches : demoted = true → ∀ item ∈ itemsFrom .start items, item.Detaches) :
    Reads (ofLines ((ofBlocks code (blocksOf items tail)).body demoted) ++ [ofChar '\n'])
      ((itemsFrom .start items).flatMap fun item => (item.left demoted).map Token.bare) := by
  have isItem (b : Block) (mem : b ∈ blocksOf items tail) : b.item ∈ itemsFrom .start items := by
    rw [← item_blocksFrom .nothing .start tail items]
    exact List.mem_map_of_mem mem
  have reads := Block.reads_turned (fun _ _ _ split => scanned.stands split)
    (fun b mem => (scanned.isRead placed b.item (isItem b mem)).nodup)
    (fun isDemoted b mem => detaches isDemoted b.item (isItem b mem)) scanned.reads_rest
  rw [blocksOf, item_blocksFrom, ← blocksOf] at reads
  obtain ⟨front, back, split, blankFront, blankBack⟩ := trimBlankLines_split
    ((blocksOf items tail).flatMap (Block.turned (Header.bodyPieces demoted)) ++ restOf items tail)
  rw [split] at reads
  rw [scanned.text_body placed]
  exact (reads.of_append_blank blankFront).append_break blankBack

end

/-! ## Code points of what is written -/

namespace Span

variable {code : Text} {c : CodePoint}

theorem mem_of_mem_slice {start stop : Nat} (mem : c ∈ code.slice start stop) : c ∈ code :=
  List.mem_of_mem_take (List.mem_of_mem_drop mem)

theorem mem_sweep {stop position : Nat} {patches : List Patch}
    (mem : c ∈ sweep code stop position patches) :
    c ∈ code ∨ ∃ patch ∈ patches, c ∈ patch.text := by
  induction patches generalizing position with
  | nil => exact .inl (mem_of_mem_slice mem)
  | cons patch patches ih =>
    rw [sweep, List.mem_append, List.mem_append] at mem
    rcases mem with (mem | mem) | mem
    · exact .inl (mem_of_mem_slice mem)
    · exact .inr ⟨patch, List.mem_cons_self, mem⟩
    · rcases ih mem with mem | ⟨patch', inside, mem⟩
      · exact .inl mem
      · exact .inr ⟨patch', List.mem_cons_of_mem _ inside, mem⟩

theorem mem_render {span : Span} {cuts : List Span} {edits : List Edit}
    (mem : c ∈ span.render code cuts edits) : c ∈ code ∨ ∃ e ∈ edits, c ∈ e.text := by
  rcases mem_sweep mem with mem | ⟨patch, inside, mem⟩
  · exact .inl mem
  · right
    rw [patches, List.mem_mergeSort, List.mem_append] at inside
    rcases inside with inside | inside
    · obtain ⟨cut, -, rfl⟩ := List.mem_map.1 inside
      cases mem
    · obtain ⟨e, kept, rfl⟩ := List.mem_map.1 inside
      exact ⟨e, (List.mem_filter.1 kept).1, mem⟩

end Span

theorem Text.mem_of_mem_trimBlankLines {s : Text} {c : CodePoint}
    (mem : c ∈ ofLines (trimBlankLines s.lines)) : c ∈ s := by
  obtain ⟨front, back, split, -⟩ := trimBlankLines_split s
  rw [split]
  exact List.mem_append_right _ (List.mem_append_left _ mem)

theorem CompilationUnit.mem_body {u : CompilationUnit} {demoted : Bool} {c : CodePoint}
    (mem : c ∈ ofLines (u.body demoted)) : c ∈ u.code := by
  have rendered (edits : List Edit) (none : ∀ e ∈ edits, e.text = [])
      (mem : c ∈ ofLines (u.bodyLines edits)) : c ∈ u.code := by
    rcases Span.mem_render (mem_of_mem_trimBlankLines mem) with mem | ⟨e, inside, mem⟩
    · exact mem
    · rw [none e inside] at mem
      cases mem
  rw [body] at mem
  split at mem
  · refine rendered _ (fun e inside => ?_) mem
    obtain ⟨t, -, stripped⟩ := List.mem_filterMap.1 inside
    rw [stripPublicEdit?] at stripped
    split at stripped
    · obtain ⟨offset, -, rfl⟩ := Option.map_eq_some_iff.1 stripped
      rfl
    · cases stripped
  · exact rendered [] (by simp) mem

theorem Import.mem_text {item : Item} {c : CodePoint} (mem : c ∈ (Import.ofItem item).text) :
    c ∈ Text.ofString "import static ;" ∨ ∃ t ∈ item, c ∈ t.value := by
  have name (mem : c ∈ (Import.ofItem item).name) : ∃ t ∈ item, c ∈ t.value := by
    have joined {ts : List Token} (inside : ∀ t ∈ ts, t ∈ item) (mem : c ∈ Item.joinValues ts) :
        ∃ t ∈ item, c ∈ t.value := by
      obtain ⟨t, kept, mem⟩ := List.mem_flatMap.1 mem
      exact ⟨t, inside t (List.mem_filter.1 kept).1, mem⟩
    rw [Import.ofItem] at mem
    split at mem
    · rename_i t rest later
      have inside : ∀ t' ∈ t :: rest, t' ∈ item := by
        rw [← later]
        exact fun t' => List.mem_of_mem_drop
      split at mem
      · exact joined (fun t' mem => inside t' (List.mem_cons_of_mem _ mem)) mem
      · exact joined inside mem
    · cases mem
  have words {words : Text} (within : ∀ d ∈ words, d ∈ Text.ofString "import static ;")
      (mem : c ∈ words) : c ∈ Text.ofString "import static ;" := within c mem
  rw [Import.text, List.mem_append, List.mem_append, List.mem_append] at mem
  rcases mem with ((mem | mem) | mem) | mem
  · exact .inl (words (by decide) mem)
  · split at mem
    · exact .inl (words (by decide) mem)
    · cases mem
  · exact .inr (name mem)
  · exact .inl (words (by decide) mem)

theorem Text.mergeBreaks_of_notMem {s : Text} (none : ofChar '\r' ∉ s) : s.mergeBreaks = s := by
  fun_induction mergeBreaks s with
  | case1 => rfl
  | case2 => rfl
  | case3 c d s both ih => simp [both.1] at none
  | case4 c d s both ih => rw [ih fun mem => none (List.mem_cons_of_mem _ mem)]

theorem Text.notMem_unifyBreaks (s : Text) : ofChar '\r' ∉ s.unifyBreaks := by
  intro mem
  obtain ⟨c, -, same⟩ := List.mem_map.1 mem
  split at same
  · exact absurd same (by decide)
  · rename_i other
    exact other same

/-! ## Contents -/

namespace Text

/-- The tokens that the text has, if it can be read. -/
def read (s : Text) : List Token :=
  ((tokenize s).toOption.getD []).map Token.bare

variable {s : Text} {ts : List Token}

theorem Reads.read_eq (reads : Reads s ts) : s.read = ts := by
  obtain ⟨tokens, ok, rfl⟩ := tokenize_of_reads reads
  rw [read, ok]
  rfl

theorem join_concat (separator : Text) (parts : List Text) (last : Text) :
    join separator (parts ++ [last]) = parts.flatMap (fun part => part ++ separator) ++ last := by
  induction parts with
  | nil => simp [join]
  | cons part parts ih =>
    obtain ⟨next, rest, more⟩ := List.exists_cons_of_ne_nil
      (by simp : parts ++ [last] ≠ [])
    rw [List.flatMap_cons, List.append_assoc, ← ih, List.cons_append, more]
    simp [join, List.intersperse]

theorem opens_flatMap {α : Type} {f : α → Text} {g : α → List Token} {as : List α}
    (opens : ∀ a ∈ as, Opens (f a) (g a)) : Opens (as.flatMap f) (as.flatMap g) := by
  induction as with
  | nil => exact opens_gap .nil isPlain_nil
  | cons a as ih =>
    rw [List.forall_mem_cons] at opens
    exact opens.1.append (ih opens.2)

theorem opens_break : Opens [ofChar '\n'] [] :=
  opens_gap (.blank (by decide) .nil) (isPlain_singleton _)

end Text

namespace Merge

variable {imports main : List Text} {others : List (List Text)}

theorem assemble_eq (imports : List Text) (others : List (List Text)) (main : List Text) :
    assemble imports others main
      = imports.flatMap (fun line => line ++ [ofChar '\n'])
        ++ (if imports.isEmpty then [] else [ofChar '\n'])
        ++ others.flatMap (fun ls => ofLines ls ++ [ofChar '\n'] ++ [ofChar '\n'])
        ++ (ofLines main ++ [ofChar '\n']) := by
  have separator : Text.ofString "\n\n" = [ofChar '\n'] ++ [ofChar '\n'] := rfl
  rw [assemble, join_concat, separator, show Text.ofString "\n" = [ofChar '\n'] from rfl]
  cases imports with
  | nil => simp [List.flatMap_map]
  | cons line imports =>
    rw [flatMap_break (by simp)]
    simp [List.flatMap_map]

theorem mem_assemble {imports main : List Text} {others : List (List Text)} {c : CodePoint}
    (mem : c ∈ assemble imports others main) : c = ofChar '\n' ∨ (∃ line ∈ imports, c ∈ line) ∨
      (∃ ls ∈ others, c ∈ ofLines ls) ∨ c ∈ ofLines main := by
  rw [assemble_eq] at mem
  simp only [List.mem_append, List.mem_flatMap, List.mem_singleton] at mem
  rcases mem with ((⟨line, inside, mem | mem⟩ | mem) | ⟨ls, inside, (mem | mem) | mem⟩) | mem | mem
  · exact .inr (.inl ⟨line, inside, mem⟩)
  · exact .inl mem
  · split at mem
    · cases mem
    · exact .inl (List.mem_singleton.1 mem)
  · exact .inr (.inr (.inl ⟨ls, inside, mem⟩))
  · exact .inl mem
  · exact .inl mem
  · exact .inr (.inr (.inr mem))
  · exact .inl mem

/-- The text of a merge is read as its imports and then as what the files leave. -/
theorem reads_assemble
    (importsRead : ∀ line ∈ imports, Reads (line ++ [ofChar '\n']) (read (line ++ [ofChar '\n'])))
    (othersRead : ∀ ls ∈ others,
      Reads (ofLines ls ++ [ofChar '\n']) (read (ofLines ls ++ [ofChar '\n'])))
    (mainRead : Reads (ofLines main ++ [ofChar '\n']) (read (ofLines main ++ [ofChar '\n']))) :
    Reads (assemble imports others main)
      ((imports.flatMap fun line => read (line ++ [ofChar '\n']))
        ++ (others.flatMap fun ls => read (ofLines ls ++ [ofChar '\n']))
        ++ read (ofLines main ++ [ofChar '\n'])) := by
  rw [assemble_eq]
  have front := opens_flatMap fun line mem => (importsRead line mem).opens
  have blank : Opens (if imports.isEmpty then [] else [ofChar '\n']) [] := by
    split
    · exact opens_gap .nil isPlain_nil
    · exact opens_break
  have middle := opens_flatMap fun ls mem => (othersRead ls mem).opens.append opens_break
  simpa using ((front.append blank).append middle).append_reads mainRead

end Merge

/-- The text that a merge takes from a file, which may be demoted. -/
def Extract.text (demoted : Bool) (e : Extract) : Text :=
  ofLines (if demoted then e.demotedBody else e.body) ++ [ofChar '\n']

/-- The content of a merge is read as its imports, then as what the files leave that are not chosen,
and then as what the chosen one leaves. -/
theorem Merge.reads_content {es : List Extract} {c : Choice}
    (imports : ∀ line ∈ (ofChoice es c).imports,
      Reads (line ++ [ofChar '\n']) (read (line ++ [ofChar '\n'])))
    (others : ∀ e ∈ c.others, Reads (e.text true) (read (e.text true)))
    (chosen : Reads (c.chosen.text false) (read (c.chosen.text false))) :
    Reads (ofChoice es c).content
      (((ofChoice es c).imports.flatMap fun line => read (line ++ [ofChar '\n']))
        ++ (c.others.flatMap fun e => read (e.text true)) ++ read (c.chosen.text false)) := by
  have bodies : ∀ ls ∈ (c.others.filter fun e => !e.demotedBody.isEmpty).map Extract.demotedBody,
      Reads (ofLines ls ++ [ofChar '\n']) (read (ofLines ls ++ [ofChar '\n'])) := by
    intro ls mem
    obtain ⟨e, inside, rfl⟩ := List.mem_map.1 mem
    exact others e (List.mem_filter.1 inside).1
  have reads := reads_assemble imports bodies chosen
  -- A file that leaves no lines has no tokens.
  have same : (((c.others.filter fun e => !e.demotedBody.isEmpty).map Extract.demotedBody).flatMap
      fun ls => read (ofLines ls ++ [ofChar '\n']))
      = c.others.flatMap fun e => read (e.text true) := by
    rw [List.flatMap_map]
    induction c.others with
    | nil => rfl
    | cons e es ih =>
      rw [List.filter_cons, List.flatMap_cons, ← ih]
      cases body : e.demotedBody with
      | nil =>
        have nothing : read (e.text true) = [] := by
          rw [Extract.text, if_pos rfl, body]
          exact opens_break.reads.read_eq
        rw [nothing]
        rfl
      | cons line ls =>
        rw [List.isEmpty_cons, Bool.not_false, if_pos rfl, List.flatMap_cons, Extract.text,
          if_pos rfl]
  rw [same] at reads
  exact reads

theorem Merge.Extracted.unique {sources : Files} {defined : List Text} {es es' : List Extract}
    (extracted : Extracted sources defined es) (extracted' : Extracted sources defined es') :
    es = es' := by
  induction extracted generalizing es' with
  | nil => cases extracted'; rfl
  | cons here _ ih =>
    cases extracted' with
    | cons here' later' =>
      obtain ⟨u, parsed, rfl⟩ := here
      obtain ⟨u', parsed', rfl⟩ := here'
      rw [parsed] at parsed'
      rw [Except.ok.inj parsed', ih later']

/-! ## Sources -/

/-- The items of a source. -/
def Text.items (s : Text) : List Item :=
  Item.group ((tokenize s.unifyBreaks).toOption.getD [])

theorem Text.items_of_tokenize {s : Text} {ts : List Token}
    (read : tokenize s.unifyBreaks = .ok ts) : s.items = Item.group ts := by
  rw [items, read]
  rfl

/-- Whether a source has no escapes and each of its tokens is found where it stands. -/
structure Text.IsPlaced (s : Text) : Prop where
  plain : s.unifyBreaks.IsPlain
  placed : Placed s.unifyBreaks (Scan.run s.unifyBreaks).1

/-- Whether a merge reads the source as its items and writes them as it has read them: tokens are
found where they stand, imports are written as they were read, and no tokens run together when
`public` goes. -/
structure Text.IsLegible (s : Text) : Prop extends s.IsPlaced where
  returns : ∀ item ∈ s.items, item.Returns
  detaches : ∀ item ∈ s.items, item.Detaches

section

variable {s : Text} {u : CompilationUnit}

theorem code_of_parse (parsed : parse s = .ok u) : u.code = s.unifyBreaks := by
  obtain ⟨-, entries, -, -, rfl⟩ := parse_eq_ok.1 parsed
  rfl

theorem exists_tokenize_of_parse (parsed : parse s = .ok u) :
    ∃ read, tokenize s.unifyBreaks = .ok read := by
  obtain ⟨ts, -, read, -⟩ := parse_eq_ok.1 parsed
  exact ⟨ts, read⟩

theorem Scanned.items_eq {code tail : Text} {items : List (List Piece)}
    (scanned : Scanned code items tail) (unified : s.unifyBreaks = code) :
    s.items = itemsFrom .start items := by
  rw [Text.items, unified, tokenize, decodeEscapes_of_isPlain scanned.plain, ok_bind,
    run_eq scanned]
  exact scanned.grouped

theorem Text.IsPlaced.exists_scanned (isPlaced : s.IsPlaced) (parsed : parse s = .ok u) :
    ∃ items tail, Scanned u.code items tail ∧ Placed u.code items.flatten ∧
      u = ofBlocks u.code (blocksOf items tail) ∧ s.items = itemsFrom .start items := by
  have code := code_of_parse parsed
  have placed := isPlaced.placed
  rw [← code] at placed
  obtain ⟨items, tail, scanned, whole⟩ := exists_scanned_of_parse isPlaced.plain parsed placed
  rw [run_eq scanned] at placed
  exact ⟨items, tail, scanned, placed, whole, scanned.items_eq code.symm⟩

theorem Text.IsPlaced.isRead (isPlaced : s.IsPlaced) (parsed : parse s = .ok u) :
    ∀ item ∈ s.items, item.IsRead := by
  obtain ⟨items, tail, scanned, placed, -, same⟩ := isPlaced.exists_scanned parsed
  rw [same]
  exact scanned.isRead placed

theorem Text.IsPlaced.mem_code (isPlaced : s.IsPlaced) (parsed : parse s = .ok u) {item : Item}
    {t : Token} {c : CodePoint} (inside : item ∈ s.items) (isToken : t ∈ item)
    (mem : c ∈ t.value) : c ∈ s.unifyBreaks := by
  obtain ⟨items, tail, scanned, -, -, same⟩ := isPlaced.exists_scanned parsed
  have token : t.bare ∈ items.flatten.map Piece.token := by
    rw [← bare_tokensFrom .start, ← flatten_itemsFrom, ← same]
    exact List.mem_map_of_mem (List.mem_flatten.2 ⟨item, inside, isToken⟩)
  obtain ⟨p, isPiece, bare⟩ := List.mem_map.1 token
  obtain ⟨front, back, split⟩ := List.append_of_mem isPiece
  have value : p.lexeme = t.value := congrArg Token.value bare
  rw [← code_of_parse parsed, scanned.whole, split, source_append, source_cons]
  simp [value, mem]

/-- What a merge takes from a legible source is read as what the source's items leave. -/
theorem Text.IsLegible.reads_text (legible : s.IsLegible) (parsed : parse s = .ok u)
    (demoted : Bool) (path : Text) (defined : List Text) :
    Reads ((Extract.ofUnit path defined u).text demoted)
      (s.items.flatMap fun item => (item.left demoted).map Token.bare) := by
  obtain ⟨items, tail, scanned, placed, whole, same⟩ := legible.exists_scanned parsed
  have detaches := legible.detaches
  rw [same] at detaches ⊢
  have reads := scanned.reads_body placed fun (_ : demoted = true) => detaches
  rw [← whole] at reads
  exact reads

theorem Item.import?_eq_some {item : Item} {i : Import} (found : item.import? = some i) :
    Role.ofItem item = .importDecl i ∧ i = .ofItem item := by
  rw [Item.import?] at found
  cases role : Role.ofItem item with
  | importDecl i' =>
    rw [role] at found
    obtain rfl := Option.some.inj found
    refine ⟨rfl, ?_⟩
    cases item with
    | nil => cases role
    | cons first item =>
      rw [Role.ofItem] at role
      split at role
      · cases role
      split at role
      · exact (Role.importDecl.inj role).symm
      · split at role <;> cases role
  | package => simp [role, Role.import?] at found
  | type => simp [role, Role.import?] at found
  | stray => simp [role, Role.import?] at found

theorem Text.IsPlaced.imports_eq (isPlaced : s.IsPlaced) (parsed : parse s = .ok u) :
    u.imports = s.items.filterMap Item.import? := by
  obtain ⟨items, tail, -, -, whole, same⟩ := isPlaced.exists_scanned parsed
  rw [same, ← imports_ofBlocks u.code items tail, ← whole]

theorem Text.IsLegible.reads_line (legible : s.IsLegible) (parsed : parse s = .ok u) {item : Item}
    {i : Import} (inside : item ∈ s.items) (found : item.import? = some i) :
    Reads (i.text ++ [ofChar '\n']) (item.map Token.bare) := by
  obtain ⟨items, tail, scanned, -, -, same⟩ := legible.exists_scanned parsed
  have line : Reads (i.text ++ []) (item.map Token.bare) := by
    rw [List.append_nil]
    exact scanned.reads_import (same ▸ inside) (legible.returns item inside) found
  exact line.append_break (by simp)

end

/-! ## Merges of sources -/

namespace Merge

theorem mem_imports {es : List Extract} {c : Choice} {line : Text} :
    line ∈ (ofChoice es c).imports ↔ ∃ e ∈ es, ∃ i ∈ e.imports, i.text = line := by
  have perm := Text.perm_sort (es.flatMap fun e => e.imports.map Import.text).eraseDups
  rw [ofChoice, perm.mem_iff, List.mem_eraseDups, List.mem_flatMap]
  simp only [List.mem_map]

section

variable {sources : Files} {defined : List Text} {es : List Extract} {c : Choice}

theorem Extracted.exists_item (extracted : Extracted sources defined es)
    (legible : ∀ file ∈ sources, file.2.IsLegible) {e : Extract} (mem : e ∈ es) {i : Import}
    (imported : i ∈ e.imports) : ∃ file ∈ sources, ∃ item ∈ file.2.items,
      item.import? = some i ∧ i.isSelf defined = false ∧
      Reads (i.text ++ [ofChar '\n']) (item.map Token.bare) := by
  obtain ⟨file, inside, u, parsed, rfl⟩ := exists_left_of_mem extracted mem
  obtain ⟨declared, other⟩ := List.mem_filter.1 imported
  rw [(legible file inside).imports_eq parsed] at declared
  obtain ⟨item, isItem, found⟩ := List.mem_filterMap.1 declared
  exact ⟨file, inside, item, isItem, found, by simpa using other,
    (legible file inside).reads_line parsed isItem found⟩

/-- The content of a merge of legible sources is read as its imports and what the files leave. -/
theorem Extracted.reads_content (extracted : Extracted sources defined es)
    (legible : ∀ file ∈ sources, file.2.IsLegible) (all : c.all = es) :
    Reads (ofChoice es c).content
      (((ofChoice es c).imports.flatMap fun line => read (line ++ [ofChar '\n']))
        ++ (c.others.flatMap fun e => read (e.text true)) ++ read (c.chosen.text false)) := by
  have text (e : Extract) (mem : e ∈ c.all) (demoted : Bool) :
      Reads (e.text demoted) (read (e.text demoted)) := by
    obtain ⟨file, inside, u, parsed, rfl⟩ := exists_left_of_mem extracted (all ▸ mem)
    have reads := (legible file inside).reads_text parsed demoted file.1 defined
    rwa [← reads.read_eq] at reads
  apply Merge.reads_content
  · intro line mem
    obtain ⟨e, inside, i, imported, rfl⟩ := mem_imports.1 mem
    obtain ⟨-, -, item, -, -, -, reads⟩ := extracted.exists_item legible inside imported
    rwa [← reads.read_eq] at reads
  · exact fun e mem => text e (Choice.mem_all.2 (.inl mem)) true
  · exact text c.chosen (Choice.mem_all.2 (.inr rfl)) false

theorem Extracted.notMem_content (extracted : Extracted sources defined es)
    (legible : ∀ file ∈ sources, file.2.IsLegible) (all : c.all = es) :
    ofChar '\r' ∉ (ofChoice es c).content := by
  have body (e : Extract) (mem : e ∈ c.all) (demoted : Bool) :
      ofChar '\r' ∉ ofLines (if demoted then e.demotedBody else e.body) := by
    obtain ⟨file, -, u, parsed, rfl⟩ := exists_left_of_mem extracted (all ▸ mem)
    intro inside
    exact file.2.notMem_unifyBreaks (code_of_parse parsed ▸ mem_body inside)
  intro mem
  rcases mem_assemble mem with is | ⟨line, inside, mem⟩ | ⟨ls, inside, mem⟩ | mem
  · exact absurd is (by decide)
  · obtain ⟨e, here, i, imported, rfl⟩ := (@mem_imports es c line).1 inside
    obtain ⟨file, isFile, u, parsed, rfl⟩ := exists_left_of_mem extracted here
    obtain ⟨declared, -⟩ := List.mem_filter.1 imported
    rw [(legible file isFile).imports_eq parsed] at declared
    obtain ⟨item, isItem, found⟩ := List.mem_filterMap.1 declared
    obtain ⟨-, rfl⟩ := Item.import?_eq_some found
    rcases Import.mem_text mem with mem | ⟨t, isToken, mem⟩
    · exact absurd mem (by decide)
    · exact file.2.notMem_unifyBreaks ((legible file isFile).mem_code parsed isItem isToken mem)
  · obtain ⟨e, here, rfl⟩ := List.mem_map.1 inside
    exact body e (Choice.mem_all.2 (.inl (List.mem_filter.1 here).1)) true mem
  · exact body c.chosen (Choice.mem_all.2 (.inr rfl)) false mem

end

end Merge

end JavaUnits
