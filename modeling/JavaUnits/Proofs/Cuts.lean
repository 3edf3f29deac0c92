import JavaUnits.Proofs.Heads
import JavaUnits.Proofs.Tiling

/-!
What is cut out of a text: its directives, each with blanks around it and nothing else. A cut may
take the line break behind its directive only where nothing is left of the line before it.
-/

namespace JavaUnits

open CodePoint Token Scan Span Text CompilationUnit

namespace CompilationUnit

/-- Whether nothing stands before a place on its line but blanks and what is cut out up to
`stop`. -/
def Clears (code : Text) (cuts : List Span) (stop place : Nat) : Prop :=
  ∀ i, code.lineStart place ≤ i → i < place → (∃ c ∈ code[i]?, c.isBlank = true) ∨
    ∃ cut ∈ cuts, cut.stop ≤ stop ∧ cut.start ≤ i ∧ i < cut.stop

/-- Whether a cut takes nothing but the directive that stands from `first` to `stop`, with blanks
around it. A line break among them can only be the last that is taken, and leaves nothing of the
line. -/
structure Removes (code : Text) (cuts : List Span) (item : Item) (cut : Span) (first stop : Nat) :
    Prop where
  stands : Item.Stands code item first stop
  before : cut.start ≤ first
  behind : stop ≤ cut.stop
  blank : ∀ i, cut.start ≤ i → i < cut.stop → ¬ (first ≤ i ∧ i < stop) →
    ∃ c ∈ code[i]?, c.isBlank = true
  lead : ∀ i, cut.start ≤ i → i < first → code[i]? ≠ some (ofChar '\n')
  trail : ∀ i, stop ≤ i → i < cut.stop → code[i]? = some (ofChar '\n') →
    i + 1 = cut.stop ∧ Clears code cuts cut.start first

variable {code : Text} {cuts : List Span} {previousEnd taken first stop : Nat} {last : Option Span}
  {item : Item} {cut : Span}

/-- A cut takes the end of its line only if it owns the line: blanks stand before the directive, or
the cut before it, which began no later than the line. -/
theorem owns_of_directiveSpan (ok : directiveSpan code last first stop = .ok cut)
    (more : cut.stop ≠ stop + blanksLength (code.drop stop)) :
    isBlank (code.slice (code.lineStart first) first) = true ∨
      ∃ before ∈ last, before.start ≤ code.lineStart first ∧ before.stop = first := by
  simp only [directiveSpan] at ok
  split at ok
  · rename_i owns
    rcases Bool.or_eq_true_iff.1 owns with blank | follows
    · exact .inl blank
    · right
      cases last with
      | none => cases follows
      | some before => exact ⟨before, rfl, by simpa using follows⟩
  · rw [← Except.ok.inj ok] at more
    exact (more rfl).elim

theorem removes_of_directiveSpan (stands : Item.Stands code item first stop)
    (ok : directiveSpan code last first stop = .ok cut)
    (known : ∀ before ∈ last, before ∈ cuts ∧ before.stop ≤ cut.start) :
    Removes code cuts item cut first stop := by
  have inked := stands.toInked
  have takes := takes_of_directiveSpan inked ok
  obtain ⟨starts, stops⟩ := directiveSpan_eq_ok ok
  have less := inked.less
  have inside := inked.inside
  refine ⟨stands, ?_, takes.le, fun i above below apart => ?_, fun i above below => ?_,
    fun i above below isBreak => ?_⟩
  · rcases starts with same | ⟨line, -⟩
    · exact Nat.le_of_eq same
    · rw [line]
      exact code.lineStart_le first
  · rcases Nat.lt_or_ge i first with early | late
    · rcases starts with same | ⟨line, blank⟩
      · omega
      · have here : code[i]? = some code[i] := List.getElem?_eq_getElem (by omega)
        exact ⟨_, here, isBlank_slice blank i (line ▸ above) early _ here⟩
    · exact takes.isBlank (by omega) below
  · rcases starts with same | ⟨line, -⟩
    · omega
    · exact noBreak_of_lineStart_le (line ▸ above) below
  · obtain ⟨c, here, blank | ⟨final, -⟩⟩ := takes.blanks i above below
    · rw [isBreak, Option.some.injEq] at here
      rw [← here] at blank
      exact absurd blank (by decide)
    refine ⟨final, fun j above' below' => ?_⟩
    have more : cut.stop ≠ stop + blanksLength (code.drop stop) := by
      intro same
      obtain ⟨d, there, blank⟩ := isSpaceOrTab_behind above (same ▸ below)
      rw [isBreak, Option.some.injEq] at there
      rw [← there] at blank
      exact absurd blank (by decide)
    rcases owns_of_directiveSpan ok more with blank | ⟨before, isLast, line, adjoins⟩
    · have here : code[j]? = some code[j] := List.getElem?_eq_getElem (by omega)
      exact .inl ⟨_, here, isBlank_slice blank j above' below' _ here⟩
    · obtain ⟨among, early⟩ := known before isLast
      exact .inr ⟨before, among, early, by omega, by omega⟩

theorem cut?_of_classify {t : Token} {entry : Entry} (head : item.head? = some t)
    (found : (Layout.ofText code).offset? t = some first)
    (ok : classify code (.ofText code) previousEnd stop last t item = .ok entry) :
    entry.cut?.isSome = item.opensDirective ∧
      ∀ cut ∈ entry.cut?, directiveSpan code last first stop = .ok cut := by
  rw [classify] at ok
  -- Both kinds of directives are cut out in one way.
  have directive {make : Span → Entry} (cuts : ∀ cut, (make cut).cut? = some cut)
      (isDirective : item.opensDirective = true)
      (ok : (do return make (← CompilationUnit.directiveSpan code last
        (← offset (.ofText code) t) stop))
        = Except.ok entry) :
      entry.cut?.isSome = item.opensDirective ∧
        ∀ cut ∈ entry.cut?, CompilationUnit.directiveSpan code last first stop = .ok cut := by
    obtain ⟨place, offset, ok⟩ := bind_eq_ok.1 ok
    obtain ⟨cut, spans, ok⟩ := bind_eq_ok.1 ok
    obtain rfl := offset_of_offset? found offset
    obtain rfl := Except.ok.inj ok
    rw [cuts, isDirective]
    refine ⟨rfl, ?_⟩
    rintro _ ⟨⟩
    exact spans
  split at ok
  · rename_i isPackage
    exact directive (fun _ => rfl) (by rw [Item.opensDirective, head]; simp [isPackage]) ok
  rename_i noPackage
  split at ok
  · rename_i isImport
    exact directive (fun _ => rfl) (by rw [Item.opensDirective, head]; simp [isImport]) ok
  rename_i noImport
  have other : item.opensDirective = false := by
    rw [Item.opensDirective, head, Option.any_some, Bool.or_eq_false_iff]
    exact ⟨Bool.eq_false_iff.2 noPackage, Bool.eq_false_iff.2 noImport⟩
  have none : entry.cut? = none := by
    split at ok
    · obtain ⟨located, -, ok⟩ := bind_eq_ok.1 ok
      rw [← Except.ok.inj ok]
      rfl
    · rw [← Except.ok.inj ok]
      rfl
  rw [none, other]
  refine ⟨rfl, fun cut mem => ?_⟩
  cases mem

namespace Tile

variable {x : Tile} {xs : List Tile}

/-- Whether every cut is made for a directive, with the cut before it in sight. -/
def Succeed (code : Text) (last : Option Span) : List Tile → Prop
  | [] => True
  | x :: xs => x.entry.cut?.isSome = x.item.opensDirective ∧
      (∀ cut ∈ x.entry.cut?, directiveSpan code last x.first x.stop = .ok cut) ∧
      Succeed code (x.entry.cut?.or last) xs

theorem Ascend.succeed (ascend : Ascend code taken xs) (more : ∀ x ∈ xs, x.item ≠ [])
    (ok : entriesFrom code (.ofText code) previousEnd last (xs.map Tile.item)
      = .ok (xs.map Tile.entry)) : Succeed code last xs := by
  induction xs generalizing previousEnd taken last with
  | nil => trivial
  | cons x xs ih =>
    obtain ⟨-, sound, ascend⟩ := ascend
    rw [List.forall_mem_cons] at more
    obtain ⟨t, head⟩ : ∃ t, x.item.head? = some t := ⟨_, List.head?_eq_some_head more.1⟩
    obtain ⟨final, ends⟩ : ∃ final, x.item.getLast? = some final :=
      ⟨_, List.getLast?_eq_some_getLast more.1⟩
    rw [List.map_cons, entriesFrom, head, ends] at ok
    obtain ⟨place, offset, ok⟩ := bind_eq_ok.1 ok
    obtain ⟨entry, classified, ok⟩ := bind_eq_ok.1 ok
    obtain ⟨entries, listed, ok⟩ := bind_eq_ok.1 ok
    obtain ⟨rfl, rfl⟩ := List.cons.inj (Except.ok.inj ok)
    obtain ⟨n, found, whole⟩ := sound.stands.final final ends
    obtain rfl := offset_of_offset? found offset
    rw [whole] at classified listed
    obtain ⟨directive, cut⟩ := cut?_of_classify head (sound.stands.head t head) classified
    exact ⟨directive, cut, ih ascend more.2 listed⟩

theorem Ascend.removes (ascend : Ascend code taken xs) (succeed : Succeed code last xs)
    (known : ∀ before ∈ last, before ∈ cuts ∧ before.stop ≤ taken)
    (among : ∀ cut ∈ Tile.cuts xs, cut ∈ cuts) :
    List.Forall₂ (fun cut item => ∃ first stop, Removes code cuts item cut first stop)
      (Tile.cuts xs) ((xs.map Tile.item).filter Item.opensDirective) := by
  induction xs generalizing taken last with
  | nil => exact .nil
  | cons x xs ih =>
    obtain ⟨above, sound, ascend⟩ := ascend
    obtain ⟨directive, made, succeed⟩ := succeed
    have less := sound.less
    cases own : x.entry.cut? with
    | none =>
      rw [own] at directive succeed
      rw [cuts_cons_of_none own] at among ⊢
      rw [List.map_cons, List.filter_cons_of_neg (by simp [← directive])]
      refine ih ascend succeed (fun before isLast => ?_) among
      obtain ⟨inside, early⟩ := known before isLast
      exact ⟨inside, by omega⟩
    | some cut =>
      rw [own] at directive succeed
      rw [cuts_cons_of_some own] at among ⊢
      rw [List.forall_mem_cons] at among
      rw [List.map_cons, List.filter_cons_of_pos (by simp [← directive])]
      rw [range_of_cut own] at above less ascend
      refine .cons ⟨_, _, removes_of_directiveSpan sound.stands (made cut own) ?_⟩
        (ih ascend succeed ?_ among.2)
      · intro before isLast
        obtain ⟨inside, early⟩ := known before isLast
        exact ⟨inside, by omega⟩
      · rintro _ ⟨⟩
        exact ⟨among.1, Nat.le_refl _⟩

end Tile

/-- The cuts are those of the directives, in their order and one behind another, and each takes away
its directive with nothing but blanks around it. -/
theorem directives_of_parse {s : Text} {u : CompilationUnit} (parsed : parse s = .ok u)
    (sited : s.IsSited) : Ascends u.directives ∧
    List.Forall₂ (fun cut item => ∃ first stop, Removes u.code u.directives item cut first stop)
      u.directives (s.items.filter Item.opensDirective) := by
  obtain ⟨xs, ascend, items, listed, same⟩ := exists_tiles_listed parsed sited
  have directives : u.directives = Tile.cuts xs := by
    rw [same]
    rfl
  rw [directives, ← items]
  rw [← items] at listed
  refine ⟨ascend.cuts.1, ascend.removes (ascend.succeed (fun x mem => ?_) listed) nofun
    fun _ mem => mem⟩
  have isItem : x.item ∈ s.items := items ▸ List.mem_map_of_mem mem
  exact Item.ne_nil_of_mem_group isItem

/-- Directives on one line, over two lines, behind a comment and between types. -/
def scattered : Text :=
  "package p; import a.B;\nimport a\n  .C; import d.E; /* e */ import f.G;  \n"
    ++ "class H \x7b\x7d import i.J;\n"
    ++ "  import k.L;\n\nenum M \x7b\x7d\n"

theorem directives_of_parse_scattered : scattered.IsSited ∧ ∃ u, parse scattered = .ok u ∧
    u.directives.length = 7 ∧ Ascends u.directives ∧
    List.Forall₂ (fun cut item => ∃ first stop, Removes u.code u.directives item cut first stop)
      u.directives (scattered.items.filter Item.opensDirective) := by
  obtain ⟨sited, u, there, seven⟩ : scattered.IsSited ∧
      ∃ u ∈ (parse scattered).toOption, u.directives.length = 7 := by
    rw [scattered, ofString_ofList, ofString_ofList]
    decide +kernel
  have parsed := toOption_eq_some.1 there
  exact ⟨sited, u, parsed, seven, directives_of_parse parsed sited⟩

end CompilationUnit

end JavaUnits
