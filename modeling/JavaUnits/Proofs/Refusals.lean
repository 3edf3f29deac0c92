import JavaUnits.Merge
import JavaUnits.Proofs.Group
import JavaUnits.Proofs.Shrinking
import JavaUnits.Split

/-!
Splits and merges that fail are refused. Every token of a tame text is found inside the text, so
nothing behind the tokenizer goes wrong, and whatever a split or a merge fails with is a refusal.
-/

namespace JavaUnits

open CodePoint Text

/-! ## Places in a line -/

namespace Layout

variable {line value : Text}

theorem nearest?_mem {target place : Nat} {places : List Nat}
    (found : nearest? target places = some place) : place ∈ places := by
  induction places generalizing place with
  | nil => cases found
  | cons first places ih =>
    rw [nearest?] at found
    split at found
    · exact Option.some.inj found ▸ List.mem_cons_self
    · rename_i other later
      obtain rfl := Option.some.inj found
      split
      · exact List.mem_cons_of_mem _ (ih later)
      · exact List.mem_cons_self

theorem occurrences_le {start place : Nat} (mem : place ∈ occurrences value line start) :
    place + value.length ≤ start + line.length := by
  induction line generalizing start with
  | nil =>
    rw [occurrences] at mem
    split at mem
    · rename_i empty
      rw [List.isEmpty_iff] at empty
      obtain rfl := List.mem_singleton.1 mem
      simp [empty]
    · cases mem
  | cons c line ih =>
    have later (mem : place ∈ occurrences value line (start + 1)) :
        place + value.length ≤ start + (line.length + 1) := by
      have := ih mem
      omega
    simp only [occurrences] at mem
    split at mem
    · rename_i here
      rcases List.mem_cons.1 mem with rfl | mem
      · have := (List.isPrefixOf_iff_prefix.1 here).length_le
        simpa using this
      · exact later mem
    · exact later mem

theorem le_of_holdsAt {place : Nat} (holds : holdsAt line value place = true) (more : value ≠ []) :
    place + value.length ≤ line.length := by
  have := (List.isPrefixOf_iff_prefix.1 holds).length_le
  rw [List.length_drop] at this
  have := List.length_pos_iff.2 more
  omega

theorem placeInLine_le (line : Text) (column : Nat) (more : value ≠ []) :
    placeInLine line value column + value.length ≤ line.length ∨
      placeInLine line value column = column - 1 := by
  rw [placeInLine]
  split
  · exact .inr rfl
  split
  · rename_i holds
    exact .inl (le_of_holdsAt holds more)
  cases found : nearest? (column - 1) (occurrences value line 0) with
  | none => exact .inr rfl
  | some place =>
    have := occurrences_le (nearest?_mem found)
    exact .inl (by simpa using this)

theorem exists_row {front rest : Text} {n : Nat} (enough : n ≤ front.count (ofChar '\n')) :
    ∃ start line, (ofText (front ++ rest))[n]? = some (start, line) ∧ start ≤ front.length ∧
      start + line.length ≤ (front ++ rest).length := by
  induction front using List.reverseRecOn generalizing rest with
  | nil =>
    obtain rfl : n = 0 := by simpa using enough
    have row := rowsFrom_line 0 [] rest
    refine ⟨_, _, row, by simp, ?_⟩
    have := (List.takeWhile_prefix (l := rest) fun c : CodePoint => c ≠ ofChar '\n').length_le
    simpa [firstLine] using this
  | append_singleton front c ih =>
    by_cases before : n ≤ front.count (ofChar '\n')
    · obtain ⟨start, line, row, within, ends⟩ := @ih (c :: rest) before
      refine ⟨start, line, by simpa using row, ?_, by simpa using ends⟩
      rw [List.length_append]
      omega
    · have last : n = (front ++ [c]).count (ofChar '\n') := by
        have : (front ++ [c]).count (ofChar '\n') ≤ front.count (ofChar '\n') + 1 := by
          rw [List.count_append]
          have := List.count_le_length (a := ofChar '\n') (l := [c])
          simp only [List.length_singleton] at this
          omega
        omega
      have row := rowsFrom_line 0 (front ++ [c]) rest
      rw [← last] at row
      refine ⟨_, _, row, by omega, ?_⟩
      have last := lastLine_length_le (front ++ [c])
      have first := (List.takeWhile_prefix (l := rest) fun c : CodePoint =>
        c ≠ ofChar '\n').length_le
      simp only [firstLine, List.length_append, List.length_singleton] at last first ⊢
      omega

/-- Whether a token is found where it ends within the text. -/
def FindsInside (code : Text) (t : Token) : Prop :=
  ∃ n, (ofText code).offset? t = some n ∧ n + t.value.length ≤ code.length

end Layout

/-! ## Positions -/

namespace Position

/-- Whether `p` counts no more line breaks than there are in the front of a text, and from there on
all its code points. -/
def IsWithin (p : Position) (front : Text) : Prop :=
  ∃ x y, front = x ++ y ∧ p.line ≤ x.count (ofChar '\n') + 1 ∧ p.column = y.length + 1

theorem isWithin_start : start.IsWithin [] :=
  ⟨[], [], rfl, by simp [start], rfl⟩

theorem IsWithin.pass {p : Position} {front : Text} (within : p.IsWithin front) (c : CodePoint) :
    (p.pass c).IsWithin (front ++ [c]) := by
  obtain ⟨x, y, rfl, line, column⟩ := within
  rw [Position.pass]
  split
  · rename_i isBreak
    refine ⟨x ++ y ++ [c], [], by simp, ?_, rfl⟩
    simp only [isBreak, List.count_append, List.count_cons_self, List.count_nil]
    omega
  · exact ⟨x, y ++ [c], by simp, line, by simp [column]⟩

theorem IsWithin.passAll {p : Position} {front : Text} (within : p.IsWithin front) (s : Text) :
    (p.passAll s).IsWithin (front ++ s) := by
  induction s generalizing p front with
  | nil => simpa [Position.passAll] using within
  | cons c s ih =>
    have := ih (within.pass c)
    rwa [List.append_assoc, List.singleton_append] at this

theorem IsWithin.passToken {p : Position} {front : Text} (within : p.IsWithin front) (s : Text) :
    (p.passToken s).IsWithin (front ++ s) := by
  obtain ⟨x, y, rfl, line, column⟩ := within
  refine ⟨x, y ++ s, by simp, line, ?_⟩
  simp only [Position.passToken, column, List.length_append]
  omega

theorem IsWithin.findsInside {p : Position} {code decoded front value rest : Text} {kind : Kind}
    (within : p.IsWithin front) (decodes : Escape.decode code = .ok decoded)
    (tame : Escape.IsTame code) (split : decoded = front ++ value ++ rest) (more : value ≠ []) :
    Layout.FindsInside code ⟨kind, value, p⟩ := by
  obtain ⟨x, y, rfl, line, column⟩ := within
  have apart : decoded = x ++ (y ++ value ++ rest) := by
    rw [split]
    simp
  obtain ⟨x', back, rfl, lines, behind⟩ := Escape.exists_cut decodes tame apart
  have enough : p.line - 1 ≤ x'.count (ofChar '\n') := by omega
  obtain ⟨start, text, row, first, ends⟩ := @Layout.exists_row x' back _ enough
  refine ⟨start + Layout.placeInLine text value p.column, ?_, ?_⟩
  · rw [Layout.offset?, row]
    rfl
  · simp only [List.length_append] at behind ends ⊢
    rcases Layout.placeInLine_le text p.column more with inside | there
    · omega
    · rw [there, column]
      omega

end Position

namespace Scan

theorem isWithin_positionFrom (ps : List Piece) :
    (positionFrom .start ps).IsWithin (source ps) := by
  induction ps using List.reverseRecOn with
  | nil => exact Position.isWithin_start
  | append_singleton ps p ih =>
    rw [positionFrom_append, source_append, source_cons, ← List.append_assoc]
    simpa [positionFrom, source] using (ih.passAll p.gap).passToken p.lexeme

end Scan

theorem decode_of_decodeEscapes {code decoded : Text} (decodes : code.decodeEscapes = .ok decoded) :
    Escape.decode code = .ok decoded := by
  rw [decodeEscapes] at decodes
  split at decodes
  · rename_i ok
    rwa [← Except.ok.inj decodes]
  all_goals cases decodes

theorem tokenize_eq_ok {code : Text} {ts : List Token} (ok : tokenize code = .ok ts) :
    ∃ decoded, Escape.decode code = .ok decoded ∧ ts = Scan.tokens (Scan.run decoded).1 := by
  obtain ⟨decoded, decodes, ok⟩ := bind_eq_ok.1 ok
  refine ⟨decoded, decode_of_decodeEscapes decodes, ?_⟩
  split at ok
  · rename_i ran
    rw [ran]
    exact (Except.ok.inj ok).symm
  · cases ok

theorem exists_piece_of_mem_tokens {ps : List Piece} {t : Token} (mem : t ∈ Scan.tokens ps) :
    ∃ front p back, ps = front ++ p :: back ∧ t = Scan.tokenAfter front p := by
  obtain ⟨before, later, split⟩ := List.append_of_mem mem
  obtain ⟨front, rest, rfl, -, whole⟩ := Scan.tokensFrom_eq_append split
  cases rest with
  | nil => cases whole
  | cons p back => exact ⟨front, p, back, rfl, (List.cons.inj whole).1⟩

theorem findsInside_of_tokenize {code : Text} {ts : List Token} (tame : Escape.IsTame code)
    (ok : tokenize code = .ok ts) {t : Token} (mem : t ∈ ts) : Layout.FindsInside code t := by
  obtain ⟨decoded, decodes, rfl⟩ := tokenize_eq_ok ok
  obtain ⟨front, p, back, pieces, rfl⟩ := exists_piece_of_mem_tokens mem
  have whole := Scan.source_run decoded
  rw [pieces, Scan.source_append, Scan.source_cons] at whole
  have fits := Scan.fits_of_run (rfl : Scan.run decoded = (_, _))
  rw [pieces, Scan.fits_append] at fits
  have within := (Scan.isWithin_positionFrom front).passAll p.gap
  have split : decoded = Scan.source front ++ p.gap ++ p.lexeme
      ++ (Scan.source back ++ (Scan.run decoded).2.text) := by
    simpa using whole.symm
  exact within.findsInside decodes tame split fits.2.2.1.ne_nil

theorem Item.mem_of_mem_group {ts : List Token} {item : Item} (mem : item ∈ group ts) {t : Token}
    (inside : t ∈ item) : t ∈ ts := by
  obtain ⟨items, rest, rfl, -, grouped⟩ := group_spec ts
  rw [grouped, List.mem_append] at mem
  rcases mem with mem | mem
  · exact List.mem_append_left _ (List.mem_flatten_of_mem mem inside)
  · split at mem
    · cases mem
    · rw [List.mem_singleton.1 mem] at inside
      exact List.mem_append_right _ inside

/-! ## Entries -/

namespace CompilationUnit

variable {code : Text}

theorem typeStart_ok (previousEnd : Nat) {first : Nat} (within : first ≤ code.length) :
    ∃ start, typeStart code first previousEnd = .ok start := by
  rw [typeStart]
  split
  · exact ⟨_, rfl⟩
  · refine ⟨_, if_neg ?_⟩
    omega

theorem blanksLength_le (s : Text) : blanksLength s ≤ s.length :=
  (List.takeWhile_sublist _).length_le

theorem directiveSpan_ok (last : Option Span) (start : Nat) {stop : Nat}
    (within : stop ≤ code.length) : ∃ cut, directiveSpan code last start stop = .ok cut := by
  simp only [directiveSpan]
  split
  · split
    · rename_i atEnd
      have blanks := blanksLength_le (code.drop stop)
      rw [List.length_drop] at blanks
      rw [List.drop_eq_nil_iff] at atEnd
      exact ⟨_, if_pos (by omega)⟩
    · exact ⟨_, rfl⟩
  · exact ⟨_, rfl⟩

theorem offset_ok {t : Token} (inside : Layout.FindsInside code t) :
    ∃ n, offset (.ofText code) t = .ok n ∧ n + t.value.length ≤ code.length := by
  obtain ⟨n, found, within⟩ := inside
  exact ⟨n, by rw [offset, found], within⟩

theorem locate_ok (previousEnd : Nat) {h : Header} {item : Item}
    (found : Header.ofItem? item = some h)
    (inside : ∀ t ∈ item, Layout.FindsInside code t) :
    ∃ located, locate code (.ofText code) previousEnd h = .ok located := by
  obtain ⟨first, anchor, visible⟩ := Header.ofItem?_mem found
  obtain ⟨n, firstOffset, within⟩ := offset_ok (inside _ (List.mem_of_mem_head? first))
  obtain ⟨anchorPlace, anchorOffset, -⟩ := offset_ok (inside _ anchor)
  obtain ⟨start, starts⟩ := typeStart_ok previousEnd (show n ≤ code.length by omega)
  have visibility : ∃ place, h.visibilityToken.mapM (offset (.ofText code)) = .ok place := by
    cases token : h.visibilityToken with
    | none => exact ⟨none, rfl⟩
    | some v =>
      obtain ⟨place, visibilityOffset, -⟩ := offset_ok (inside _ (visible v token))
      exact ⟨some place, by rw [Option.mapM_some, visibilityOffset]; rfl⟩
  obtain ⟨place, visibility⟩ := visibility
  refine ⟨⟨h, start, place, anchorPlace⟩, ?_⟩
  rw [locate, visibility, ok_bind, anchorOffset, ok_bind, firstOffset, ok_bind, starts]
  rfl

theorem classify_ok (previousEnd : Nat) (last : Option Span) {stop : Nat} {first : Token}
    {item : Item} (head : item.head? = some first) (within : stop ≤ code.length)
    (inside : ∀ t ∈ item, Layout.FindsInside code t) :
    ∃ entry, classify code (.ofText code) previousEnd stop last first item = .ok entry := by
  obtain ⟨start, found, -⟩ := offset_ok (inside _ (List.mem_of_mem_head? head))
  obtain ⟨cut, spans⟩ := directiveSpan_ok last start within
  rw [classify]
  split
  · exact ⟨_, by rw [found, ok_bind, spans]; rfl⟩
  split
  · exact ⟨_, by rw [found, ok_bind, spans]; rfl⟩
  split
  · rename_i h header
    obtain ⟨located, locates⟩ := locate_ok previousEnd header inside
    exact ⟨_, by rw [locates]; rfl⟩
  · exact ⟨_, rfl⟩

theorem entriesFrom_ok (previousEnd : Nat) (last : Option Span) {items : List Item}
    (inside : ∀ item ∈ items, ∀ t ∈ item, Layout.FindsInside code t) :
    ∃ entries, entriesFrom code (.ofText code) previousEnd last items = .ok entries := by
  induction items generalizing previousEnd last with
  | nil => exact ⟨[], rfl⟩
  | cons item items ih =>
    have here := inside item List.mem_cons_self
    have later (previousEnd : Nat) (last : Option Span) :=
      ih previousEnd last fun item mem => inside item (List.mem_cons_of_mem _ mem)
    rw [entriesFrom]
    split
    · rename_i first final head tail
      obtain ⟨n, found, within⟩ := offset_ok (here _ (List.mem_of_getLast? tail))
      obtain ⟨entry, classified⟩ := classify_ok previousEnd last head within here
      obtain ⟨entries, rest⟩ := later (n + final.value.length) (entry.cut?.or last)
      refine ⟨entry :: entries, ?_⟩
      simp only [found, ok_bind, classified, rest, pure_eq_ok]
    · exact later _ _

/-- All that a tame text can have against it is that it has no tokens. -/
theorem parse_eq_error {source : Text} {e : UnitError}
    (tame : Text.Escape.IsTame source.unifyBreaks)
    (failed : parse source = .error e) :
    ∃ lexical, tokenize source.unifyBreaks = .error lexical ∧ e = .lexical lexical := by
  rw [parse] at failed
  split at failed
  · rename_i lexical unread
    exact ⟨lexical, unread, (Except.error.inj failed).symm⟩
  · rename_i tokens read
    have inside : ∀ item ∈ Item.group tokens, ∀ t ∈ item,
        Layout.FindsInside source.unifyBreaks t := fun item mem t within =>
      findsInside_of_tokenize tame read (Item.mem_of_mem_group mem within)
    obtain ⟨entries, listed⟩ := entriesFrom_ok 0 none inside
    rw [listed] at failed
    cases failed

end CompilationUnit

/-! ## Refusals -/

variable {source : Text}

theorem split_eq_error {e : UnitError} (tame : Escape.IsTame source.unifyBreaks)
    (failed : split source = .error e) :
    ∃ lexical, tokenize source.unifyBreaks = .error lexical ∧ e = .lexical lexical := by
  rw [split] at failed
  rcases bind_eq_error.1 failed with failed | ⟨u, -, never⟩
  · exact CompilationUnit.parse_eq_error tame failed
  · cases never

theorem declaredNames_eq_error {e : LexError} :
    declaredNames source = .error e ↔ tokenize source.mergeBreaks = .error e := by
  rw [declaredNames, bind_eq_error]
  simp [pure_eq_ok]

theorem Policy.eq_of_name {p q : Policy} (same : p.name = q.name) : p = q := by
  revert same
  cases p <;> cases q <;> decide

/-- Whether the first file whose text cannot be read fails with `e`. -/
def Files.FailsFirst {ε α : Type} (read : Text → Except ε α) (files : Files) (e : ε) : Prop :=
  ∃ front file back, files = front ++ file :: back ∧
    (∀ other ∈ front, ∃ a, read other.2 = .ok a) ∧ read file.2 = .error e

namespace Merge

variable {sources : Files} {defined : List Text} {es : List Extract} {asked : Option Text}
  {configured : Text} {p : Policy}

theorem policy_eq_ok : policy asked configured = .ok p ↔
    p.name = Policy.effective asked configured := by
  rw [policy]
  generalize Policy.effective asked configured = name
  cases found : Policy.ofName? name with
  | some q =>
    have named : q.name = name := by simpa using List.find?_some found
    simp only [Except.ok.injEq, ← named]
    exact ⟨fun same => same ▸ rfl, fun same => Policy.eq_of_name same.symm⟩
  | none =>
    have unknown := List.find?_eq_none.1 found p (by cases p <;> decide)
    simpa using unknown

theorem policy_eq_error {e : MergeError} : policy asked configured = .error e ↔
    (∀ p : Policy, p.name ≠ Policy.effective asked configured) ∧
      e = .invalidPolicy (Policy.effective asked configured) := by
  cases decided : policy asked configured with
  | ok p => simpa using fun unknown => absurd (policy_eq_ok.1 decided) (unknown p)
  | error e' =>
    have unknown : ∀ p : Policy, p.name ≠ Policy.effective asked configured := by
      intro p named
      rw [policy_eq_ok.2 named] at decided
      cases decided
    rw [policy] at decided
    split at decided
    · cases decided
    · rw [← Except.error.inj decided]
      simp [unknown, eq_comm]

theorem definedNames_eq (sources : Files) : definedNames sources
    = List.flatten <$> sources.mapM fun file => (declaredNames file.2).mapError .lexical := by
  rw [definedNames, map_eq_pure_bind]
  refine congrArg (List.mapM · sources >>= fun names => pure names.flatten) (funext fun file => ?_)
  dsimp only
  cases declaredNames file.2 <;> rfl

theorem definedNames_eq_error {e : UnitError} : definedNames sources = .error e ↔
    ∃ lexical, sources.FailsFirst declaredNames lexical ∧ e = .lexical lexical := by
  rw [definedNames_eq, map_eq_error, mapM_eq_error]
  simp only [mapError_eq_ok, mapError_eq_error, Files.FailsFirst]
  constructor
  · rintro ⟨front, file, back, split, before, lexical, failed, rfl⟩
    exact ⟨lexical, ⟨front, file, back, split, before, failed⟩, rfl⟩
  · rintro ⟨lexical, ⟨front, file, back, split, before, failed⟩, rfl⟩
    exact ⟨front, file, back, split, before, lexical, failed, rfl⟩

theorem ofSource_eq_error {path source : Text} {e : UnitError} :
    Extract.ofSource defined path source = .error e ↔ CompilationUnit.parse source = .error e := by
  rw [Extract.ofSource, bind_eq_error]
  simp [pure_eq_ok]

theorem exists_ofSource {path source : Text} : (∃ x, Extract.ofSource defined path source = .ok x) ↔
    ∃ u, CompilationUnit.parse source = .ok u := by
  simp [Extract.ofSource, bind_eq_ok, pure_eq_ok]

theorem extracts_eq_error {e : UnitError} :
    sources.mapM (fun (path, source) => Extract.ofSource defined path source) = .error e ↔
      sources.FailsFirst CompilationUnit.parse e := by
  rw [mapM_eq_error]
  simp only [exists_ofSource, ofSource_eq_error]
  rfl

namespace Choice

theorem first?_eq_none : first? es = none ↔ es.filterMap Extract.candidate? = [] := by
  induction es with
  | nil => simp [first?]
  | cons e es ih =>
    rw [first?, List.filterMap_cons]
    cases name : e.mainClassName with
    | none => simpa [Extract.isCandidate, Extract.candidate?, name] using ih
    | some n => simp [Extract.isCandidate, Extract.candidate?, name]

theorem make_eq_error {e : MergeError} : make p es = .error e ↔
    p = .fail ∧ 1 < (es.filterMap Extract.candidate?).length ∧
        e = .multipleEntryPoints (es.filterMap Extract.candidate?) ∨
      es.filterMap Extract.candidate? = [] ∧ e = .noEntryPoint := by
  have missing : (if p = .first then first? es else last? es) = none ↔
      es.filterMap Extract.candidate? = [] := by
    split
    · exact first?_eq_none
    · rw [last?, Option.map_eq_none_iff, first?_eq_none, List.filterMap_reverse,
        List.reverse_eq_nil_iff]
  rw [make]
  split
  · rename_i several
    have more : es.filterMap Extract.candidate? ≠ [] := by
      intro none
      simp [none] at several
    simp [several.1, several.2, more, eq_comm]
  · rename_i few
    rw [← missing]
    split
    · rename_i c found
      simp only [found, reduceCtorEq, false_and, or_false, false_iff]
      exact fun ⟨isFail, several, _⟩ => few ⟨isFail, several⟩
    · rename_i none
      simp only [none, Except.error.injEq, true_and]
      constructor
      · exact fun same => .inr same.symm
      · rintro (⟨isFail, several, -⟩ | rfl)
        · exact (few ⟨isFail, several⟩).elim
        · rfl

end Choice

end Merge

/-- What a merge fails with, when every file is tame: the policy is unknown, there is no file, one
of them has no tokens, or the entry point is missing or one of many. -/
theorem merge_eq_error {sources : Files} {asked : Option Text} {configured : Text} {e : MergeError}
    (tame : ∀ file ∈ sources, Escape.IsTame file.2.unifyBreaks)
    (failed : merge sources asked configured = .error e) :
    e = .invalidPolicy (Policy.effective asked configured) ∨ e = .noSources ∨
      (∃ file ∈ sources, ∃ lexical, e = .source (.lexical lexical) ∧
        (tokenize file.2.mergeBreaks = .error lexical ∨
          tokenize file.2.unifyBreaks = .error lexical)) ∨
      e = .noEntryPoint ∨
      ∃ defined es, sources.mapM (fun (path, source) => Extract.ofSource defined path source)
        = .ok es ∧ e = .multipleEntryPoints (es.filterMap Extract.candidate?) := by
  rw [merge] at failed
  rcases bind_eq_error.1 failed with failed | ⟨p, -, failed⟩
  · exact .inl (Merge.policy_eq_error.1 failed).2
  split at failed
  · exact .inr (.inl (Except.error.inj failed).symm)
  rcases bind_eq_error.1 failed with failed | ⟨es, extracted, failed⟩
  · obtain ⟨e', unextracted, rfl⟩ := mapError_eq_error.1 failed
    refine .inr (.inr (.inl ?_))
    rcases bind_eq_error.1 unextracted with failed | ⟨defined, -, failed⟩
    · obtain ⟨lexical, ⟨front, file, back, rfl, -, unnamed⟩, rfl⟩ :=
        Merge.definedNames_eq_error.1 failed
      exact ⟨file, by simp, lexical, rfl, .inl (declaredNames_eq_error.1 unnamed)⟩
    · obtain ⟨front, file, back, rfl, -, unparsed⟩ := Merge.extracts_eq_error.1 failed
      obtain ⟨lexical, unread, rfl⟩ :=
        CompilationUnit.parse_eq_error (tame file (by simp)) unparsed
      exact ⟨file, by simp, lexical, rfl, .inr unread⟩
  · rcases bind_eq_error.1 failed with failed | ⟨c, -, never⟩
    · obtain ⟨defined, -, extracted⟩ := bind_eq_ok.1 (mapError_eq_ok.1 extracted)
      rcases Merge.Choice.make_eq_error.1 failed with ⟨-, -, rfl⟩ | ⟨-, rfl⟩
      · exact .inr (.inr (.inr (.inr ⟨defined, es, extracted, rfl⟩)))
      · exact .inr (.inr (.inr (.inl rfl)))
    · cases never

end JavaUnits
