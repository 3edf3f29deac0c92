import JavaUnits.Proofs.Heads
import JavaUnits.Proofs.Refusals

/-!
What comments, layout and the texts of literals tell of the types that a source declares: nothing. A
comment put in behind a blank leaves all tokens as they are, and of a literal only that it stands
there is ever looked at.
-/

namespace JavaUnits

open CodePoint Token Scan Text CompilationUnit

/-! ## Tokens without the texts of literals -/

namespace Token

/-- The token without its place and, if it is a literal, without its text. -/
def blur (t : Token) : Token :=
  if t.kind = .string then ⟨.string, [], .start⟩ else t.bare

theorem blurs_blur : Blurs blur where
  kind t := by
    rw [blur]
    split
    · rename_i literal
      exact literal.symm
    · rfl
  value t other := by
    rw [blur, if_neg other]
    rfl

theorem blur_bare (t : Token) : t.bare.blur = t.blur := rfl

theorem blur_blur (t : Token) : t.blur.blur = t.blur := by
  by_cases literal : t.kind = .string
  · rw [blur, blur, if_pos literal, if_pos rfl]
  · rw [show t.blur = t.bare from if_neg literal, blur_bare]
    exact if_neg literal

end Token

namespace Item

variable {item : Item}

/-- The tokens of an item without their places. Only a directive keeps the texts of literals. -/
def outline (item : Item) : Item :=
  item.map (if item.opensDirective then bare else blur)

section

variable {f : Token → Token} (blurs : Blurs f)
include blurs

theorem opensDirective_map (item : Item) : opensDirective (item.map f) = item.opensDirective := by
  rw [opensDirective, opensDirective, List.head?_map, Option.any_map]
  congr 1
  funext t
  exact congrArg₂ or (blurs.isKeyword t _) (blurs.isKeyword t _)

theorem header?_map (item : Item) : header? (item.map f) = item.header?.map (Header.moved f) := by
  have directive := opensDirective_map blurs item
  cases here : item.opensDirective with
  | true =>
    rw [header?_of_opensDirective here, header?_of_opensDirective (directive.trans here)]
    rfl
  | false =>
    rw [header?_of_not_opensDirective here, header?_of_not_opensDirective (directive.trans here),
      Header.ofItem?_map blurs]

end

theorem map_blur_outline (item : Item) : item.outline.map blur = item.map blur := by
  rw [outline, List.map_map]
  refine List.map_congr_left fun t _ => ?_
  rw [Function.comp_apply]
  split
  · exact blur_bare t
  · exact blur_blur t

theorem outline_bare (item : Item) : outline (item.map bare) = item.outline := by
  rw [outline, outline, opensDirective_map blurs_bare, List.map_map]
  refine List.map_congr_left fun t _ => ?_
  rw [Function.comp_apply]
  split
  · exact bare_bare t
  · exact blur_bare t

theorem package?_of_not_opensDirective (other : item.opensDirective = false) :
    item.package? = none ∧ item.import? = none := by
  cases item with
  | nil => exact ⟨rfl, rfl⟩
  | cons first item =>
    rw [opensDirective, List.head?_cons, Option.any_some, Bool.or_eq_false_iff] at other
    rw [package?, import?, Role.ofItem, if_neg (by simp [other.1]), if_neg (by simp [other.2])]
    cases Header.ofItem? (first :: item) <;> exact ⟨rfl, rfl⟩

theorem directive_outline (item : Item) :
    item.outline.package? = item.package? ∧ item.outline.import? = item.import? := by
  cases directive : item.opensDirective with
  | true =>
    rw [outline, if_pos directive]
    exact ⟨package?_bare item, import?_bare item⟩
  | false =>
    have other : item.outline.opensDirective = false := by
      rw [outline, if_neg (by simp [directive]), opensDirective_map blurs_blur, directive]
    obtain ⟨package, imports⟩ := package?_of_not_opensDirective directive
    obtain ⟨package', imports'⟩ := package?_of_not_opensDirective other
    exact ⟨package'.trans package.symm, imports'.trans imports.symm⟩

end Item

/-- The tokens of a text without their places, and without the texts of literals save in
directives. -/
def Text.outline (s : Text) : List Token :=
  s.items.flatMap Item.outline

theorem Text.group_items (s : Text) : Item.group s.items.flatten = s.items := by
  rw [Text.items, Item.flatten_group]

/-- Texts of one outline have the same items but for places and literals. -/
theorem Text.blur_eq_of_outline {s s' : Text} (same : s.outline = s'.outline) :
    s.items.map (List.map blur) = s'.items.map (List.map blur) := by
  have flat (s : Text) : s.outline.map blur = s.items.flatten.map blur := by
    rw [outline, List.map_flatMap, List.map_flatten]
    exact congrArg List.flatten (List.map_congr_left fun item _ => item.map_blur_outline)
  rw [← group_items s, ← group_items s', ← Item.group_map blurs_blur, ← Item.group_map blurs_blur,
    ← flat, ← flat, same]

theorem Text.map_outline_eq {s s' : Text} (same : s.outline = s'.outline) :
    s.items.map Item.outline = s'.items.map Item.outline := by
  have lengths (s : Text) : (s.items.map Item.outline).map List.length
      = (s.items.map (List.map blur)).map List.length := by
    rw [List.map_map, List.map_map]
    exact List.map_congr_left fun item _ => by simp [Item.outline]
  refine List.eq_iff_flatten_eq.2 ⟨same, ?_⟩
  rw [lengths, lengths, blur_eq_of_outline same]

/-! ## What a unit declares -/

/-- What a header says of its type. -/
def Header.gist (h : Header) : Text × TypeKind × Visibility × List Text × Bool :=
  (h.name, h.kind, h.visibility, h.modifiers, h.declaresMain)

theorem Header.gist_bare (h : Header) : h.bare.gist = h.gist := by
  rw [gist, gist, visibility_bare]
  rfl

theorem Header.gist_moved {f : Token → Token} (blurs : Blurs f) {item : Item} {h : Header}
    (found : ofItem? item = some h) : (h.moved f).gist = h.gist := by
  have visibility : (h.moved f).visibility = h.visibility := by
    rw [Header.visibility, Header.visibility, moved]
    cases visible : h.visibilityToken with
    | none => rfl
    | some v =>
      have modifier := (ofItem?_visibility found visible).1
      simp only [Option.map_some, Option.bind_some]
      rw [blurs.value v (by simp [modifier])]
  rw [gist, gist, visibility]
  rfl

/-- Whether two types are declared alike, whatever stands in them. -/
structure TypeDecl.Resembles (t t' : TypeDecl) : Prop where
  name : t.name = t'.name
  kind : t.header.kind = t'.header.kind
  visibility : t.header.visibility = t'.header.visibility
  modifiers : t.header.modifiers = t'.header.modifiers
  declaresMain : t.header.declaresMain = t'.header.declaresMain
  isEntryPoint : t.isEntryPoint = t'.isEntryPoint

theorem TypeDecl.resembles_of_gist {t t' : TypeDecl} (same : t.header.gist = t'.header.gist) :
    t.Resembles t' := by
  simp only [Header.gist, Prod.mk.injEq] at same
  obtain ⟨name, kind, visibility, modifiers, main⟩ := same
  refine ⟨name, kind, visibility, modifiers, main, ?_⟩
  rw [isEntryPoint, isEntryPoint, isPublic, isPublic, main, visibility]

/-- Whether two units have the same package and imports and declare types alike. -/
structure CompilationUnit.Resembles (u u' : CompilationUnit) : Prop where
  package : u.package = u'.package
  imports : u.imports = u'.imports
  types : List.Forall₂ TypeDecl.Resembles u.types u'.types

section

variable {s s' : Text} {u u' : CompilationUnit}

/-- What the types of a unit are declared as is told by its items without literals. -/
theorem gist_of_parse (parsed : parse s = .ok u) : (u.types.map fun t => t.header.gist)
    = ((s.items.map (List.map blur)).filterMap Item.header?).map Header.gist := by
  have headers := congrArg (List.map Header.gist) (outlines_of_parse parsed).headers
  simp only [List.map_map, Function.comp_def, Header.gist_bare] at headers
  rw [headers, List.filterMap_map, List.map_filterMap, List.map_filterMap]
  refine List.filterMap_congr fun item _ => ?_
  rw [Function.comp_apply, Item.header?_map blurs_blur]
  cases found : item.header? with
  | none => rfl
  | some h =>
    exact congrArg some (Header.gist_moved blurs_blur (Item.ofItem?_of_header? found)).symm

theorem resembles_of_outline (parsed : parse s = .ok u) (parsed' : parse s' = .ok u')
    (same : s.outline = s'.outline) : u.Resembles u' := by
  have outlines := outlines_of_parse parsed
  have outlines' := outlines_of_parse parsed'
  have items := map_outline_eq same
  have packages (s : Text) : s.items.filterMap Item.package?
      = (s.items.map Item.outline).filterMap Item.package? := by
    rw [List.filterMap_map]
    exact List.filterMap_congr fun item _ => item.directive_outline.1.symm
  have imports (s : Text) : s.items.filterMap Item.import?
      = (s.items.map Item.outline).filterMap Item.import? := by
    rw [List.filterMap_map]
    exact List.filterMap_congr fun item _ => item.directive_outline.2.symm
  refine ⟨?_, ?_, ?_⟩
  · rw [outlines.package, outlines'.package, packages, packages s', items]
  · rw [outlines.imports, outlines'.imports, imports, imports s', items]
  · have gists := gist_of_parse parsed
    rw [blur_eq_of_outline same, ← gist_of_parse parsed'] at gists
    have all : List.Forall₂ (· = ·) (u.types.map fun t => t.header.gist)
        (u'.types.map fun t => t.header.gist) := List.forall₂_eq_eq_eq.symm ▸ gists
    rw [List.forall₂_map_left_iff, List.forall₂_map_right_iff] at all
    exact all.imp fun _ _ => TypeDecl.resembles_of_gist

/-- The names that a text declares are told by its items without literals. -/
theorem declaredNames_eq (noReturn : ofChar '\r' ∉ s) (parsed : parse s = .ok u) :
    declaredNames s = .ok (declaredNames.collect none (s.items.map (List.map blur)).flatten) := by
  obtain ⟨ts, read⟩ := exists_tokenize_of_parse parsed
  have tokens : s.items.flatten = ts := by rw [items_of_tokenize read, Item.flatten_group]
  rw [unifyBreaks_of_notMem noReturn] at read
  rw [declaredNames, mergeBreaks_of_notMem noReturn, read, ← List.map_flatten, tokens]
  exact congrArg Except.ok (collect_map blurs_blur none ts).symm

end

/-! ## Comments put in -/

namespace Token

/-- A comment up to the mark that closes it, or to the end of its line. -/
inductive IsComment : Text → Prop
  | line {body : Text} : ofChar '\n' ∉ body →
      IsComment (ofChar '/' :: ofChar '/' :: (body ++ [ofChar '\n']))
  | block {body : Text} : closingLength? 0 body = some body.length →
      IsComment (ofChar '/' :: ofChar '*' :: body)

theorem IsComment.isGap {comment : Text} (isComment : IsComment comment) : IsGap comment := by
  cases isComment with
  | line noBreak => exact .line noBreak .nil
  | block closes => simpa using IsGap.block closes .nil

theorem IsTail.of_append {g t : Text} (front : IsGap g) (tail : IsTail (g ++ t)) : IsTail t := by
  have length := tail.gapLength_eq
  rw [front.gapLength_append, List.length_append] at length
  obtain ⟨-, rest, -, -⟩ := gapLength_spec t
  rwa [List.take_of_length_le (by omega)] at rest

end Token

namespace Scan

variable {ps qs : List Piece} {g comment back t : Text}

theorem Fits.exists_comment (fits : Fits qs t) (tail : IsTail t) (front : IsGap g)
    (isComment : IsComment comment) (whole : g ++ back = source qs ++ t) :
    ∃ qs' t', g ++ (comment ++ back) = source qs' ++ t' ∧ Fits qs' t' ∧ IsTail t' ∧
      qs'.map Piece.token = qs.map Piece.token := by
  cases qs with
  | nil =>
    rw [source_nil, List.nil_append] at whole
    rw [← whole] at tail
    exact ⟨[], _, rfl, trivial, front.append_tail
      (isComment.isGap.append_tail (tail.of_append front)), rfl⟩
  | cons q qs =>
    obtain ⟨gap, lex, rest⟩ := id fits
    rw [source_cons, List.append_assoc, List.append_assoc] at whole
    -- The gap before the next piece is no shorter than its front.
    have bound : g.length ≤ q.gap.length := by
      obtain ⟨c, u, lexeme, zero, -⟩ := lex
      have lengths := congrArg gapLength whole
      rw [front.gapLength_append, gap.gapLength_append, lexeme, List.cons_append, zero] at lengths
      omega
    obtain ⟨more, gapEq, rfl⟩ : ∃ more, q.gap = g ++ more ∧
        back = more ++ (q.lexeme ++ (source qs ++ t)) := by
      rcases List.append_eq_append_iff.1 whole with ⟨more, gapEq, later⟩ | ⟨more, rfl, later⟩
      · exact ⟨more, gapEq, later⟩
      · rw [List.length_append] at bound
        obtain rfl : more = [] := List.length_eq_zero_iff.1 (by omega)
        exact ⟨[], by simp, later.symm⟩
    rw [gapEq] at gap
    have longer := front.append (isComment.isGap.append (front.of_append gap))
    exact ⟨{ q with gap := g ++ (comment ++ more) } :: qs, t, by simp [source_cons],
      fits.regap longer, tail, rfl⟩

end Scan

/-- Whether `front` ends with a blank that stands outside of comments and literals when `back`
follows. -/
def Text.EndsApart (front back : Text) : Prop :=
  ∃ ps qs g ending, Scan.run (front ++ back) = (ps ++ qs, ending) ∧ front = source ps ++ g ∧
    IsGap g ∧ ∃ c ∈ g.getLast?, c.isBlank = true

variable {front back comment : Text} {ts : List Token}

theorem Text.Reads.insert_comment (reads : Reads (front ++ back) ts) (ends : front.EndsApart back)
    (isComment : IsComment comment) (noBackslash : ofChar '\\' ∉ comment) :
    Reads (front ++ comment ++ back) ts := by
  obtain ⟨ps, qs, g, ending, ran, rfl, isGap, c, last, blank⟩ := ends
  obtain ⟨all, t, done, rfl⟩ := reads.run
  obtain ⟨rfl, rfl⟩ := Prod.mk.injEq .. ▸ ran.symm.trans done
  have fits := fits_of_run done
  have whole : g ++ back = source qs ++ t := by
    have split := source_run (source ps ++ g ++ back)
    rw [done, source_append, List.append_assoc, List.append_assoc] at split
    exact (List.append_cancel_left split).symm
  rw [fits_append] at fits
  obtain ⟨qs', t', later, fits', tail, tokens⟩ :=
    fits.2.exists_comment (isTail_of_run done) isGap isComment whole
  have more : g ≠ [] := by
    rintro rfl
    cases last
  refine ⟨ps ++ qs', t', ?_, fits_append.2 ⟨?_, fits'⟩, tail, ?_, ?_⟩
  · rw [source_append, List.append_assoc, List.append_assoc, List.append_assoc, later]
  · have before := fits.1
    simp only [Ending.text] at before
    rw [← whole] at before
    rw [← later]
    exact before.exchange_gap isGap more _
  · have final : (source ps ++ g).getLast? ≠ some (ofChar '\\') := by
      rw [List.getLast?_append, show g.getLast? = some c from last, Option.some_or, Ne,
        Option.some.injEq]
      rintro rfl
      exact absurd blank (by decide)
    have plain := (isPlain_append final).1 reads.isPlain
    have end' : comment.getLast? ≠ some (ofChar '\\') :=
      fun here => noBackslash (List.mem_of_getLast? here)
    rw [List.append_assoc]
    exact (isPlain_append final).2 ⟨plain.1, (isPlain_append end').2
      ⟨isPlain_of_noBackslash noBackslash, plain.2⟩⟩
  · rw [List.map_append, List.map_append, tokens]

section

variable {s : Text}

theorem Text.Reads.parses (reads : Reads s ts) (noReturn : ofChar '\r' ∉ s) :
    ∃ u, parse s = .ok u := by
  have unified := unifyBreaks_of_notMem noReturn
  obtain ⟨tokens, read, -⟩ := tokenize_of_reads reads
  have none : Escape.denoted s = [] := Escape.denoted_of_none reads.isPlain
  have tame : Escape.IsTame s.unifyBreaks := by
    rw [unified, Escape.IsTame, none]
    exact ⟨List.not_mem_nil, List.not_mem_nil⟩
  cases parsed : parse s with
  | ok u => exact ⟨u, rfl⟩
  | error e =>
    obtain ⟨lexical, unread, -⟩ := parse_eq_error tame parsed
    rw [unified, read] at unread
    cases unread

theorem Text.Reads.outline_eq (reads : Reads s ts) (noReturn : ofChar '\r' ∉ s) :
    s.outline = (Item.group ts).flatMap Item.outline := by
  obtain ⟨tokens, read, rfl⟩ := tokenize_of_reads reads
  have items : s.items = Item.group tokens :=
    items_of_tokenize (by rwa [unifyBreaks_of_notMem noReturn])
  rw [outline, items, Item.group_bare, List.flatMap_map]
  exact List.flatMap_congr fun item _ => item.outline_bare.symm

end

/-- Texts of one outline declare the same, whatever stands in their comments and literals; and a
text keeps its outline when a comment is put in behind a blank that stands outside of comments and
literals. -/
theorem resembles_of_parse :
    (∀ (s s' : Text) (u u' : CompilationUnit), ofChar '\r' ∉ s → ofChar '\r' ∉ s' →
      parse s = .ok u → parse s' = .ok u' → s.outline = s'.outline →
        u.Resembles u' ∧ declaredNames s = declaredNames s') ∧
    ∀ (front back comment : Text) (u : CompilationUnit), ofChar '\r' ∉ front ++ comment ++ back →
      (front ++ back).IsPlain → parse (front ++ back) = .ok u → front.EndsApart back →
      IsComment comment → ofChar '\\' ∉ comment →
        (∃ u', parse (front ++ comment ++ back) = .ok u') ∧
          (front ++ comment ++ back).outline = (front ++ back).outline := by
  constructor
  · intro s s' u u' noReturn noReturn' parsed parsed' same
    refine ⟨resembles_of_outline parsed parsed' same, ?_⟩
    rw [declaredNames_eq noReturn parsed, declaredNames_eq noReturn' parsed',
      blur_eq_of_outline same]
  · intro front back comment u noReturn plain parsed ends isComment noBackslash
    have noReturn' : ofChar '\r' ∉ front ++ back := by
      simp only [List.mem_append, not_or] at noReturn ⊢
      exact ⟨noReturn.1.1, noReturn.2⟩
    obtain ⟨ts, read⟩ := exists_tokenize_of_parse parsed
    rw [unifyBreaks_of_notMem noReturn'] at read
    have reads := reads_of_tokenize plain read
    have reads' := reads.insert_comment ends isComment noBackslash
    exact ⟨reads'.parses noReturn,
      (reads'.outline_eq noReturn).trans (reads.outline_eq noReturn').symm⟩

/-- A type with a literal in it, up to a place where a comment may stand. -/
def talking : Text :=
  "import p.Q;\npublic class A \x7b\n  String s = \"// class B\"; "

/-- The same with another literal. -/
def whispering : Text :=
  "import p.Q;\npublic class A \x7b\n  String s = \"\x7d\"; "

def aside : Text :=
  "/* class C ' */"

def closing : Text :=
  "int i; \x7d\n"

theorem resembles_of_parse_talking : talking.EndsApart closing ∧ IsComment aside ∧
    ∃ u u', parse (talking ++ aside ++ closing) = .ok u ∧ parse (whispering ++ closing) = .ok u' ∧
      u.Resembles u' ∧
      declaredNames (talking ++ aside ++ closing) = declaredNames (whispering ++ closing) := by
  have ends : talking.EndsApart closing :=
    ⟨(Scan.run (talking ++ closing)).1.take 14, (Scan.run (talking ++ closing)).1.drop 14, " ",
      (Scan.run (talking ++ closing)).2, by rw [List.take_append_drop], by decide +kernel,
      .blank (by decide) .nil, ofChar ' ', rfl, by decide⟩
  have isComment : IsComment aside := @IsComment.block " class C ' */" (by decide)
  obtain ⟨plain, noReturn, noReturn'⟩ : (talking ++ closing).IsPlain ∧
      ofChar '\r' ∉ talking ++ aside ++ closing ∧ ofChar '\r' ∉ whispering ++ closing := by
    decide +kernel
  obtain ⟨parses, parses', outlines⟩ : (parse (talking ++ closing)).toOption.isSome ∧
      (parse (whispering ++ closing)).toOption.isSome ∧
      (talking ++ closing).outline = (whispering ++ closing).outline := by
    rw [talking, whispering, closing, ofString_ofList, ofString_ofList, ofString_ofList]
    decide +kernel
  obtain ⟨u, parsed⟩ := exists_eq_ok parses
  obtain ⟨u', parsed'⟩ := exists_eq_ok parses'
  obtain ⟨⟨v, inserted⟩, kept⟩ :=
    resembles_of_parse.2 talking closing aside u noReturn plain parsed ends isComment (by decide)
  exact ⟨ends, isComment, v, u', inserted, parsed',
    resembles_of_parse.1 _ _ _ _ noReturn noReturn' inserted parsed' (kept.trans outlines)⟩

end JavaUnits
