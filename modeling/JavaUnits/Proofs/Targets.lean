import JavaUnits.Proofs.Scalars

/-!
Where an edit of a type's visibility goes. It goes where the text writes the token that it is about,
as long as the lines before the token are counted right and no other occurrence of its word is as
near to the column at which it is reported. Escapes shift the column, each by what it takes beyond
what it denotes.
-/

namespace JavaUnits

open CodePoint Token Scan Text CompilationUnit

/-! ## The nearest place -/

namespace Layout

variable {line value : Text}

theorem nearest?_eq_none {target : Nat} {places : List Nat} :
    nearest? target places = none ↔ places = [] := by
  cases places with
  | nil => simp [nearest?]
  | cons first places =>
    rw [nearest?]
    split <;> simp

theorem nearest?_le {target place : Nat} {places : List Nat}
    (found : nearest? target places = some place) :
    ∀ other ∈ places, distance place target ≤ distance other target := by
  induction places generalizing place with
  | nil => cases found
  | cons first places ih =>
    rw [nearest?] at found
    split at found
    · rename_i none
      obtain rfl := Option.some.inj found
      obtain rfl := nearest?_eq_none.1 none
      simp
    · rename_i nearest later
      obtain rfl := Option.some.inj found
      have least := ih later
      intro other mem
      rcases List.mem_cons.1 mem with rfl | mem
      · split <;> omega
      · have := least other mem
        split <;> omega

theorem mem_occurrences (more : value ≠ []) {start place : Nat} :
    place ∈ occurrences value line start ↔
      ∃ n, place = start + n ∧ holdsAt line value n = true := by
  induction line generalizing start with
  | nil => simp [occurrences, holdsAt, more]
  | cons c line ih =>
    have later : place ∈ occurrences value line (start + 1)
        ↔ ∃ n, place = start + (n + 1) ∧ holdsAt (c :: line) value (n + 1) = true := by
      rw [ih]
      simp only [holdsAt, List.drop_succ_cons, Nat.add_assoc, Nat.add_comm 1]
    have here : holdsAt (c :: line) value 0 = value.isPrefixOf (c :: line) := rfl
    have parts : (∃ n, place = start + n ∧ holdsAt (c :: line) value n = true)
        ↔ place = start ∧ value.isPrefixOf (c :: line) = true
          ∨ place ∈ occurrences value line (start + 1) := by
      rw [later]
      constructor
      · rintro ⟨_ | n, is, holds⟩
        · exact .inl ⟨is, here ▸ holds⟩
        · exact .inr ⟨n, is, holds⟩
      · rintro (⟨is, holds⟩ | ⟨n, is, holds⟩)
        · exact ⟨0, is, here ▸ holds⟩
        · exact ⟨n + 1, is, holds⟩
    rw [parts]
    simp only [occurrences]
    split
    · rename_i holds
      simp [holds]
    · rename_i other
      simp [other]

/-- A word is taken to stand at a place where it does, if it is reported less far before the place
than each other place before it where the word stands. -/
theorem placeInLine_eq {column place : Nat} (more : value ≠ [])
    (holds : holdsAt line value place = true) (before : column ≤ place)
    (alone : ∀ other < place, holdsAt line value other = true →
      other + 2 * (place - column) < place) : placeInLine line value (column + 1) = place := by
  rw [placeInLine, Nat.add_sub_cancel]
  split
  · rename_i here
    by_contra other
    have := alone column (by omega) here
    omega
  rename_i notHere
  have apart : column ≠ place := by
    rintro rfl
    exact notHere holds
  split
  · rename_i next
    by_contra other
    have := alone (column + 1) (by omega) next
    omega
  have mem : place ∈ occurrences value line 0 :=
    (mem_occurrences more).2 ⟨place, (Nat.zero_add _).symm, holds⟩
  cases found : nearest? column (occurrences value line 0) with
  | none =>
    rw [nearest?_eq_none.1 found] at mem
    cases mem
  | some nearest =>
    have least := nearest?_le found place mem
    obtain ⟨n, is, holds'⟩ := (mem_occurrences more).1 (nearest?_mem found)
    rw [Nat.zero_add] at is
    subst is
    simp only [Option.getD_some]
    simp only [distance] at least
    -- Behind the place it is farther away, and before it no other is near.
    by_contra other
    by_cases early : nearest < place
    · have := alone nearest early holds'
      omega
    · omega

end Layout

/-! ## Lines of decoded texts -/

namespace Text.Escape

variable {s d : Text}

theorem decode_length_le (decoded : decode s = .ok d) (tame : IsTame s) :
    d.length ≤ s.length ∧ d.count (ofChar '\n') ≤ s.count (ofChar '\n') := by
  obtain ⟨front, back, rfl, -, behind⟩ := exists_cut decoded tame (List.nil_append d).symm
  obtain ⟨front', back', parts, lines, -⟩ := exists_cut decoded tame (List.append_nil d).symm
  rw [List.length_append]
  refine ⟨by omega, ?_⟩
  rw [parts, List.count_append]
  omega

/-- Where no escape holds or denotes a line feed, the last line is decoded to one that is no
longer. -/
theorem lastLine_decode_length_le (decoded : decode s = .ok d) (tame : IsTame s)
    (even : d.count (ofChar '\n') = s.count (ofChar '\n')) :
    (lastLine d).length ≤ (lastLine s).length := by
  induction length : s.length using Nat.strongRecOn generalizing s d with
  | ind n ih =>
    rcases decode_cases decoded with rfl | ⟨cut, -⟩ |
      ⟨before, marker, digits, more, c, rest, rfl, rfl, long, goesOn, denotes, shorter⟩
    · exact le_rfl
    · exact absurd cut tame.1
    · obtain ⟨tame', noBreak⟩ := tame.of_denotes denotes
      obtain ⟨shorter', fewer⟩ := decode_length_le goesOn tame'
      -- All line feeds behind the escape are in what follows it.
      have counts := even
      simp only [List.count_append, List.count_cons_of_ne noBreak] at counts
      have noMarker : ofChar '\n' ∉ marker := List.count_eq_zero.1 (by omega)
      have noDigits : ofChar '\n' ∉ digits := List.count_eq_zero.1 (by omega)
      have same : rest.count (ofChar '\n') = more.count (ofChar '\n') := by omega
      have iff : ofChar '\n' ∈ rest ↔ ofChar '\n' ∈ more := by
        rw [← List.count_pos_iff, ← List.count_pos_iff, same]
      have whole : before ++ marker ++ (digits ++ more) = before ++ (marker ++ digits ++ more) := by
        simp
      rw [whole, lastLine_append, lastLine_append (s := before)]
      by_cases mem : ofChar '\n' ∈ rest
      · have skip (t : Text) {u : Text} (mem : ofChar '\n' ∈ u) :
            lastLine (t ++ u) = lastLine u := by
          rw [lastLine_append, if_pos mem]
        rw [if_pos (List.mem_cons_of_mem _ mem), if_pos (List.mem_append_right _ (iff.1 mem)),
          skip _ (iff.1 mem), ← List.singleton_append, skip _ mem]
        exact ih _ (length ▸ shorter) goesOn tame' same rfl
      · have none : ofChar '\n' ∉ c :: rest := by simp [mem, noBreak.symm]
        have none' : ofChar '\n' ∉ marker ++ digits ++ more := by
          simp [noMarker, noDigits, iff.not.1 mem]
        rw [if_neg none, if_neg none']
        simp only [List.length_append, List.length_cons]
        omega

end Text.Escape

/-! ## Offsets of a type -/

namespace CompilationUnit

variable {code : Text} {layout : Layout}

theorem offset_eq_ok {t : Token} {n : Nat} (ok : offset layout t = .ok n) :
    layout.offset? t = some n := by
  rw [offset] at ok
  split at ok
  · rename_i found
    rw [found, Except.ok.inj ok]
  · cases ok

theorem offsets_of_locate {previousEnd : Nat} {h : Header} {located : Located}
    (ok : locate code layout previousEnd h = .ok located) :
    located.visibilityOffset = h.visibilityToken.bind layout.offset? ∧
      layout.offset? h.anchor = some located.anchorOffset := by
  obtain ⟨visibility, visible, ok⟩ := bind_eq_ok.1 ok
  obtain ⟨anchor, anchored, ok⟩ := bind_eq_ok.1 ok
  obtain ⟨first, -, ok⟩ := bind_eq_ok.1 ok
  obtain ⟨start, -, ok⟩ := bind_eq_ok.1 ok
  rw [← Except.ok.inj ok]
  refine ⟨?_, offset_eq_ok anchored⟩
  cases token : h.visibilityToken with
  | none =>
    rw [token] at visible
    exact (Except.ok.inj visible).symm
  | some v =>
    rw [token, Option.mapM_some] at visible
    obtain ⟨n, found, same⟩ := map_eq_ok.1 visible
    rw [← same]
    exact (offset_eq_ok found).symm

theorem locate_of_classify {previousEnd stop : Nat} {last : Option Span} {first : Token}
    {item : Item} {entry : Entry} {located : Located}
    (ok : classify code layout previousEnd stop last first item = .ok entry)
    (type : entry.type? = some located) :
    locate code layout previousEnd located.header = .ok located := by
  rw [classify] at ok
  split at ok
  · obtain ⟨start, -, ok⟩ := bind_eq_ok.1 ok
    obtain ⟨cut, -, ok⟩ := bind_eq_ok.1 ok
    rw [← Except.ok.inj ok] at type
    cases type
  split at ok
  · obtain ⟨start, -, ok⟩ := bind_eq_ok.1 ok
    obtain ⟨cut, -, ok⟩ := bind_eq_ok.1 ok
    rw [← Except.ok.inj ok] at type
    cases type
  split at ok
  · obtain ⟨located', found, ok⟩ := bind_eq_ok.1 ok
    rw [← Except.ok.inj ok] at type
    obtain rfl := Option.some.inj type
    rwa [header_of_locate found]
  · rw [← Except.ok.inj ok] at type
    cases type

theorem exists_locate {previousEnd : Nat} {last : Option Span} {items : List Item}
    {entries : List Entry} (ok : entriesFrom code layout previousEnd last items = .ok entries)
    {located : Located} (mem : located ∈ entries.filterMap Entry.type?) :
    ∃ previousEnd, locate code layout previousEnd located.header = .ok located := by
  induction items generalizing previousEnd last entries with
  | nil =>
    obtain rfl := Except.ok.inj ok
    cases mem
  | cons item items ih =>
    rw [entriesFrom] at ok
    split at ok
    · obtain ⟨place, -, ok⟩ := bind_eq_ok.1 ok
      obtain ⟨entry, classified, ok⟩ := bind_eq_ok.1 ok
      obtain ⟨later, rest, ok⟩ := bind_eq_ok.1 ok
      obtain ⟨entry', mem, type⟩ := List.mem_filterMap.1 mem
      rw [← Except.ok.inj ok] at mem
      rcases List.mem_cons.1 mem with rfl | mem
      · exact ⟨_, locate_of_classify classified type⟩
      · exact ih rest (List.mem_filterMap.2 ⟨entry', mem, type⟩)
    · exact ih ok mem

theorem exists_located {cuts : List Span} {located : List Located} {t : TypeDecl}
    (mem : t ∈ typesOf code cuts located) : ∃ l ∈ located, t.header = l.header ∧
      t.visibilityOffset = l.visibilityOffset ∧ t.anchorOffset = l.anchorOffset := by
  induction located with
  | nil => cases mem
  | cons l located ih =>
    rcases List.mem_cons.1 mem with rfl | mem
    · exact ⟨l, List.mem_cons_self, rfl, rfl, rfl⟩
    · obtain ⟨l', inside, same⟩ := ih mem
      exact ⟨l', List.mem_cons_of_mem _ inside, same⟩

/-- A type has the header of an item, and its offsets are where the tokens of the header are
found. -/
theorem offsets_of_parse {s : Text} {u : CompilationUnit} {t : TypeDecl} (parsed : parse s = .ok u)
    (mem : t ∈ u.types) :
    (∃ item ∈ s.items, item.header? = some t.header) ∧
      t.visibilityOffset = t.header.visibilityToken.bind (Layout.ofText u.code).offset? ∧
      (Layout.ofText u.code).offset? t.header.anchor = some t.anchorOffset := by
  have code := code_of_parse parsed
  obtain ⟨ts, entries, read, listed, same⟩ := parse_eq_ok.1 parsed
  have items := items_of_tokenize read
  rw [← same, ofEntries] at mem
  obtain ⟨l, inside, header, visible, anchor⟩ := exists_located mem
  obtain ⟨previousEnd, found⟩ := exists_locate listed inside
  rw [code, header, visible, anchor]
  refine ⟨?_, offsets_of_locate found⟩
  have among := List.mem_map_of_mem (f := Located.header) inside
  rw [(entriesFrom_eq_ok listed).2.2, ← items] at among
  exact List.mem_filterMap.1 among

end CompilationUnit

/-! ## The token that an edit is about -/

/-- The token at which the visibility of a type is changed: the one that sets it, or the one before
which it goes. -/
def Header.target (h : Header) : Token :=
  h.visibilityToken.getD h.anchor

/-- The token at which the visibility of the type is changed that an item declares: the first
modifier that sets it, else the first modifier, else the type keyword or the sign before it. -/
def Item.target? (item : Item) : Option Token :=
  (Header.splitAtKeyword? [] 0 0 item).map fun (before, keyword, _) =>
    (((Header.modifiersOf before).find? isVisibility).or (Header.modifiersOf before).head?).getD
      (Header.kindToken before keyword)

namespace Header

variable {item : Item} {h : Header}

theorem target_ofItem? (found : ofItem? item = some h) : item.target? = some h.target := by
  obtain ⟨before, keyword, name, rest, split, isName, rfl⟩ := ofItem?_eq_some.1 found
  rw [Item.target?, splitAtKeyword?_eq, split, Option.map_some]
  cases shown : (modifiersOf before).find? isVisibility with
  | some v => simp [target, ofParts, shown]
  | none =>
    have others : (modifiersOf before).find? (fun t => !t.isVisibility)
        = (modifiersOf before).head? := by
      cases modifiers : modifiersOf before with
      | nil => rfl
      | cons t ts =>
        rw [modifiers] at shown
        have := List.find?_eq_none.1 shown t List.mem_cons_self
        simp [this]
    simp [target, ofParts, shown, others]

theorem target_mem (found : ofItem? item = some h) :
    h.target ∈ item ∧ h.target.kind ≠ .string := by
  obtain ⟨-, anchor, visible⟩ := ofItem?_mem found
  obtain ⟨before, name, rest, -, -, ⟨previous, opens⟩, kind, isModifier⟩ := ofItem?_split found
  rw [target]
  cases token : h.visibilityToken with
  | some v =>
    obtain ⟨-, isModifier, -⟩ := isModifier v token
    refine ⟨visible v token, ?_⟩
    rw [Option.getD_some, of_decide_eq_true isModifier]
    decide
  | none =>
    refine ⟨anchor, ?_⟩
    rw [Option.getD_none]
    rcases kind with ⟨-, kind | kind⟩ | same
    · rw [kind]
      decide
    · rw [kind]
      decide
    · rw [same]
      intro isString
      simp [opensType, isString, Kind.isKeyword] at opens

end Header

/-! ## Where the text writes it -/

/-- A place in a text where a piece is written behind others. -/
structure Scan.Place where
  passed : List Piece
  piece : Piece
  front : Text
  back : Text

namespace Scan.Place

/-- Whether a text writes the token at the place, letter by letter. The escapes before the place
denote what the scan has passed before the token. -/
structure Writes (x : Place) (code : Text) (t : Token) : Prop where
  token : t = tokenAfter x.passed x.piece
  scanned : ∃ decoded ∈ (Escape.decode code).toOption,
    x.passed ++ [x.piece] <+: (run decoded).1
  written : code = x.front ++ (x.piece.lexeme ++ x.back)
  before : Escape.decode x.front = .ok (source x.passed ++ x.piece.gap)
  whole : none ∉ Escape.denoted x.front

/-- Whether the lines before the token are counted right: no literal before it goes over several
lines, and no escape before it denotes a line feed or holds one. -/
structure KeepsLines (x : Place) : Prop where
  solid : ∀ p ∈ x.passed, ofChar '\n' ∉ p.lexeme
  flat : some (ofChar '\n') ∉ Escape.denoted x.front
  even : (source x.passed ++ x.piece.gap).count (ofChar '\n') = x.front.count (ofChar '\n')

/-- How far the escapes on its line shift the token to the left. -/
def shift (x : Place) : Nat :=
  (lastLine x.front).length - (lastLine (source x.passed ++ x.piece.gap)).length

/-- Whether the token's word stands on its line before the token only if that is more than twice the
shift before it. Where no escape stands on the line nothing is asked. -/
def IsAlone (x : Place) : Prop :=
  ∀ place < (lastLine x.front).length,
    Layout.holdsAt (lastLine x.front ++ firstLine (x.piece.lexeme ++ x.back)) x.piece.lexeme place
      = true → place + 2 * x.shift < (lastLine x.front).length

variable {x : Place} {code : Text} {t : Token}

instance (x : Place) (code : Text) (t : Token) : Decidable (x.Writes code t) :=
  decidable_of_iff (t = tokenAfter x.passed x.piece ∧
      (∃ decoded ∈ (Escape.decode code).toOption, x.passed ++ [x.piece] <+: (run decoded).1) ∧
      code = x.front ++ (x.piece.lexeme ++ x.back) ∧
      Escape.decode x.front = .ok (source x.passed ++ x.piece.gap) ∧
      none ∉ Escape.denoted x.front)
    ⟨fun ⟨h₁, h₂, h₃, h₄, h₅⟩ => ⟨h₁, h₂, h₃, h₄, h₅⟩,
      fun ⟨h₁, h₂, h₃, h₄, h₅⟩ => ⟨h₁, h₂, h₃, h₄, h₅⟩⟩

instance (x : Place) : Decidable x.KeepsLines :=
  decidable_of_iff ((∀ p ∈ x.passed, ofChar '\n' ∉ p.lexeme) ∧
      some (ofChar '\n') ∉ Escape.denoted x.front ∧
      (source x.passed ++ x.piece.gap).count (ofChar '\n') = x.front.count (ofChar '\n'))
    ⟨fun ⟨h₁, h₂, h₃⟩ => ⟨h₁, h₂, h₃⟩, fun ⟨h₁, h₂, h₃⟩ => ⟨h₁, h₂, h₃⟩⟩

instance (x : Place) : Decidable x.IsAlone :=
  inferInstanceAs (Decidable (∀ place < _, _ = true → _))

theorem Writes.drop_eq (writes : x.Writes code t) :
    code.drop (x.front.length + x.piece.lexeme.length) = x.back := by
  rw [writes.written, ← List.append_assoc, ← List.length_append, List.drop_left]

theorem Writes.offset?_eq (writes : x.Writes code t) (keeps : x.KeepsLines) (alone : x.IsAlone)
    (ink : ofChar '\n' ∉ t.value) : (Layout.ofText code).offset? t = some x.front.length := by
  obtain ⟨token, ⟨decoded, -, later, scanned⟩, written, before, whole⟩ := writes
  subst token
  have ink : ofChar '\n' ∉ x.piece.lexeme := ink
  obtain ⟨line, column⟩ : ((positionFrom .start x.passed).passAll x.piece.gap).IsAfter
      (source x.passed ++ x.piece.gap) := (isAfter_positionFrom keeps.solid).passAll _
  have row := Layout.rowsFrom_line 0 x.front (x.piece.lexeme ++ x.back)
  rw [← written] at row
  have more : x.piece.lexeme ≠ [] := by
    have fits := fits_of_run (rfl : run decoded = (_, _))
    rw [← scanned, fits_append, fits_append] at fits
    exact fits.1.2.2.1.ne_nil
  have shifted := Escape.lastLine_decode_length_le before ⟨whole, keeps.flat⟩ keeps.even
  have holds : Layout.holdsAt (lastLine x.front ++ firstLine (x.piece.lexeme ++ x.back))
      x.piece.lexeme (lastLine x.front).length = true := by
    rw [Layout.holdsAt, List.drop_left, firstLine_append_of_noBreak ink,
      List.isPrefixOf_iff_prefix]
    exact List.prefix_append _ _
  have place := Layout.placeInLine_eq more holds shifted alone
  have := lastLine_length_le x.front
  simp only [Layout.offset?, tokenAfter, line, column, Nat.add_sub_cancel, keeps.even,
    Layout.ofText, row, Option.map_some, place, Option.some.injEq]
  omega

end Scan.Place

/-! ## Edits -/

/-- Every type has a token at which its visibility is changed. Where that token is written without
escapes, the lines before it are counted right and no other occurrence of its word is near, an edit
takes `public` with the blanks after it, or replaces the modifier, or goes right before the
token. -/
theorem CompilationUnit.edits_of_parse {s : Text} {u : CompilationUnit} {t : TypeDecl}
    (parsed : parse s = .ok u) (mem : t ∈ u.types) :
    (∃ item ∈ s.items, item.header? = some t.header ∧ item.target? = some t.header.target) ∧
    ∀ x : Place, x.Writes u.code t.header.target → x.KeepsLines → x.IsAlone →
      (t.header.visibility = .publicAccess → stripPublicEdit? u.code t
        = some ⟨x.front.length, x.piece.lexeme.length + blanksLength x.back, []⟩) ∧
      (t.header.visibility = .protectedAccess ∨ t.header.visibility = .privateAccess →
        publicEdit? t = some ⟨x.front.length, x.piece.lexeme.length, "public"⟩) ∧
      (t.header.visibility = .packageAccess →
        publicEdit? t = some ⟨x.front.length, 0, "public "⟩) := by
  obtain ⟨⟨item, inside, header⟩, visible, anchor⟩ := offsets_of_parse parsed mem
  have found := Item.ofItem?_of_header? header
  refine ⟨⟨item, inside, header, Header.target_ofItem? found⟩, fun x writes keeps alone => ?_⟩
  have ink : ofChar '\n' ∉ t.header.target.value := by
    obtain ⟨among, kind⟩ := Header.target_mem found
    obtain ⟨ts, read⟩ := exists_tokenize_of_parse parsed
    have items : s.items = Item.group ts := by rw [Text.items, read]; rfl
    obtain ⟨decoded, -, rfl⟩ := tokenize_eq_ok read
    obtain ⟨⟨rest, lex⟩, -⟩ := lexeme_of_mem_tokens (Item.mem_of_mem_group (items ▸ inside) among)
    exact fun mem => absurd (lex.solid kind _ mem) (by decide)
  have place := writes.offset?_eq keeps alone ink
  have value : t.header.target.value = x.piece.lexeme := congrArg Token.value writes.token
  cases token : t.header.visibilityToken with
  | some v =>
    obtain ⟨-, word, shown, -⟩ := Header.ofItem?_visibility found token
    have target : t.header.target = v := by rw [Header.target, token, Option.getD_some]
    rw [token, Option.bind_some, ← target, place] at visible
    rw [← target, value] at word
    refine ⟨fun isPublic => ?_, fun hidden => ?_, fun missing => absurd missing shown⟩
    · rw [isPublic] at word
      rw [stripPublicEdit?, if_pos (by simp [TypeDecl.isPublic, isPublic]), visible,
        Option.map_some, ← word]
      simp only [writes.drop_eq]
    · have other : ¬t.isPublic = true := by
        rcases hidden with hidden | hidden <;> simp [TypeDecl.isPublic, hidden]
      simp only [publicEdit?, if_neg other, visible, ← word]
  | none =>
    have package : t.header.visibility = .packageAccess := by rw [Header.visibility, token]; rfl
    have target : t.header.target = t.header.anchor := by
      rw [Header.target, token, Option.getD_none]
    rw [← target, place, Option.some.injEq] at anchor
    rw [token, Option.bind_none] at visible
    rw [package]
    refine ⟨fun isPublic => ?_, fun hidden => ?_, fun _ => ?_⟩
    · cases isPublic
    · rcases hidden with hidden | hidden <;> cases hidden
    have other : ¬t.isPublic = true := by simp [TypeDecl.isPublic, package]
    simp only [publicEdit?, if_neg other, visible, anchor]

/-- A modifier behind an escape, with its word in a comment and a literal before it. -/
def lookalikes : Text :=
  "/* public or not */ @Named(\"public \\u0041\") public  class Shop \x7b\x7d\n"

def lookalikesPlace : Scan.Place where
  passed := (run "/* public or not */ @Named(\"public A\")").1
  piece := ⟨" ", .modifier, "public"⟩
  front := lookalikes.take 44
  back := lookalikes.drop 50

theorem CompilationUnit.edits_of_parse_lookalikes : ∃ u t, parse lookalikes = .ok u ∧
    t ∈ u.types ∧ lookalikesPlace.Writes u.code t.header.target ∧ lookalikesPlace.KeepsLines ∧
    lookalikesPlace.IsAlone ∧ t.header.visibility = .publicAccess ∧
    stripPublicEdit? u.code t = some ⟨44, 8, []⟩ := by
  obtain ⟨u, there, t, mem, writes, isPublic⟩ : ∃ u ∈ (parse lookalikes).toOption, ∃ t ∈ u.types,
      lookalikesPlace.Writes u.code t.header.target ∧ t.header.visibility = .publicAccess := by
    rw [lookalikesPlace, lookalikes]
    repeat rw [ofString_ofList]
    decide +kernel
  have parsed := toOption_eq_some.1 there
  obtain ⟨keeps, alone⟩ : lookalikesPlace.KeepsLines ∧ lookalikesPlace.IsAlone := by
    rw [lookalikesPlace, lookalikes]
    repeat rw [ofString_ofList]
    decide +kernel
  obtain ⟨strips, -⟩ := (edits_of_parse parsed mem).2 lookalikesPlace writes keeps alone
  exact ⟨u, t, parsed, mem, writes, keeps, alone, isPublic, strips isPublic⟩

/-- A modifier behind its word and escapes, and one behind a literal that goes over several
lines. -/
def blunders : Text :=
  "/* \\u0041\\u0041 public */ public class Note \x7b\n"
    ++ "  String s = \"\"\"\n    hi\n    \"\"\";\n\x7d\npublic class Desk \x7b\x7d\n"

def blundersPlaces : List Scan.Place :=
  [ { passed := []
      piece := ⟨"/* AA public */ ", .modifier, "public"⟩
      front := blunders.take 26
      back := blunders.drop 32 },
    { passed := (run ("/* AA public */ " ++ (blunders.take 80).drop 26)).1
      piece := ⟨"\n", .modifier, "public"⟩
      front := blunders.take 81
      back := blunders.drop 87 } ]

/-- Neither modifier is where the text is edited: the one is missed for a word in the comment, the
other for the line breaks in a literal. -/
theorem CompilationUnit.edits_of_parse_blunders : ∃ u, parse blunders = .ok u ∧
    u.types.map TypeDecl.name = ["Note", "Desk"].map Text.ofString ∧
    ∀ t ∈ u.types, t.isPublic = true ∧ ∃ x ∈ blundersPlaces, x.Writes u.code t.header.target ∧
      (stripPublicEdit? u.code t).map Edit.offset ≠ some x.front.length := by
  obtain ⟨u, there, facts⟩ : ∃ u ∈ (parse blunders).toOption,
      u.types.map TypeDecl.name = ["Note", "Desk"].map Text.ofString ∧
      ∀ t ∈ u.types, t.isPublic = true ∧ ∃ x ∈ blundersPlaces, x.Writes u.code t.header.target ∧
        (stripPublicEdit? u.code t).map Edit.offset ≠ some x.front.length := by
    rw [blundersPlaces, blunders]
    repeat rw [ofString_ofList]
    decide +kernel
  exact ⟨u, toOption_eq_some.1 there, facts⟩

end JavaUnits
