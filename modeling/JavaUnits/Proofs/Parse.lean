import JavaUnits.Proofs.Document
import JavaUnits.Proofs.Reads

/-!
Parsing a text that is scanned: the unit is made of the text's blocks. Every item but the last ends
with a mark behind which any text may stand.
-/

namespace JavaUnits

open CodePoint Scan

/-- Whether the text has no escapes and is scanned as these items, with `tail` behind the last of
them. -/
structure Scanned (code : Text) (items : List (List Piece)) (tail : Text) : Prop where
  plain : code.IsPlain
  whole : code = source items.flatten ++ tail
  fits : Fits items.flatten tail
  isTail : Token.IsTail tail
  nonempty : ∀ ps ∈ items, ps ≠ []
  grouped : Item.group (tokens items.flatten) = itemsFrom .start items
  closed : ∀ ps ∈ items.dropLast, Item.IsClosed (ps.map Piece.token)

theorem itemsFrom_append (p : Position) (xs ys : List (List Piece)) :
    itemsFrom p (xs ++ ys) = itemsFrom p xs ++ itemsFrom (positionFrom p xs.flatten) ys := by
  induction xs generalizing p with
  | nil => rfl
  | cons x xs ih => simp [itemsFrom, positionFrom_append, ih]

theorem bare_itemsFrom (p : Position) (items : List (List Piece)) :
    (itemsFrom p items).map (List.map Token.bare) = items.map (List.map Piece.token) := by
  induction items generalizing p with
  | nil => rfl
  | cons ps items ih => rw [itemsFrom, List.map_cons, bare_tokensFrom, ih, List.map_cons]

theorem flatten_itemsFrom (p : Position) (items : List (List Piece)) :
    (itemsFrom p items).flatten = tokensFrom p items.flatten := by
  induction items generalizing p with
  | nil => rfl
  | cons ps items ih => simp [itemsFrom, tokensFrom_append, ih]

theorem exists_items {p : Position} {ps : List Piece} {items : List Item}
    (split : tokensFrom p ps = items.flatten) :
    ∃ groups, ps = groups.flatten ∧ itemsFrom p groups = items := by
  induction items generalizing p ps with
  | nil =>
    cases ps with
    | nil => exact ⟨[], rfl, rfl⟩
    | cons q ps => simp [tokensFrom] at split
  | cons item items ih =>
    obtain ⟨front, back, rfl, rfl, later⟩ := tokensFrom_eq_append split
    obtain ⟨groups, rfl, rfl⟩ := ih later.symm
    exact ⟨front :: groups, rfl, rfl⟩

theorem mem_itemsFrom {p : Position} {items : List (List Piece)} {ps : List Piece}
    (mem : ps ∈ items) : ∃ item ∈ itemsFrom p items, item.map Token.bare = ps.map Piece.token := by
  induction items generalizing p with
  | nil => simp at mem
  | cons qs items ih =>
    rcases List.mem_cons.1 mem with rfl | mem
    · exact ⟨_, List.mem_cons_self, bare_tokensFrom p ps⟩
    · obtain ⟨item, inside, same⟩ := ih mem
      exact ⟨item, List.mem_cons_of_mem _ inside, same⟩

theorem exists_scanned {code : Text} {read : List Token} (plain : code.IsPlain)
    (ok : tokenize code = .ok read) : ∃ items tail, Scanned code items tail ∧
      read = tokens items.flatten := by
  obtain ⟨ps, tail, ran, rfl⟩ := run_of_tokenize plain ok
  have whole := source_run code
  rw [ran] at whole
  obtain ⟨closed, rest, split, all, grouped⟩ := Item.group_spec (tokens ps)
  obtain ⟨front, back, rfl, frontTokens, backTokens⟩ := tokensFrom_eq_append split
  obtain ⟨groups, rfl, items⟩ := exists_items frontTokens.symm
  have groupsClosed : ∀ ps ∈ groups, Item.IsClosed (ps.map Piece.token) := by
    intro ps mem
    obtain ⟨item, inside, same⟩ := mem_itemsFrom (p := .start) mem
    rw [← same, Item.isClosed_bare]
    exact all item (items ▸ inside)
  have groupsNonempty : ∀ ps ∈ groups, ps ≠ [] := by
    rintro _ mem rfl
    exact (groupsClosed [] mem).ne_nil rfl
  cases back with
  | nil =>
    simp only [tokensFrom] at backTokens
    subst backTokens
    simp only [List.append_nil] at *
    refine ⟨groups, tail,
      ⟨plain, whole.symm, fits_of_run ran, isTail_of_run ran, groupsNonempty, ?_, ?_⟩,
      rfl⟩
    · simpa [items] using grouped
    · exact fun ps mem => groupsClosed ps (List.dropLast_subset groups mem)
  | cons p back =>
    have more : rest.isEmpty = false := by
      rw [backTokens]
      rfl
    have flatten : (groups ++ [p :: back]).flatten = groups.flatten ++ p :: back := by simp
    refine ⟨groups ++ [p :: back], tail, ⟨plain, ?_, ?_, isTail_of_run ran, ?_, ?_, ?_⟩,
      by rw [flatten]⟩
    · rw [flatten]
      exact whole.symm
    · rw [flatten]
      exact fits_of_run ran
    · intro ps mem
      rw [List.mem_append, List.mem_singleton] at mem
      rcases mem with mem | rfl
      · exact groupsNonempty ps mem
      · simp
    · rw [flatten, grouped, more, itemsFrom_append, items, backTokens]
      rfl
    · simpa using groupsClosed

theorem isSealed_last {ps : List Piece} (closed : Item.IsClosed (ps.map Piece.token)) {p : Piece}
    (last : ps.getLast? = some p) : p.isSealed = true := by
  obtain ⟨xs, mark, split, ends⟩ := Item.endsWithLast_last closed
  have token : p.token = mark := by
    have := congrArg List.getLast? split
    simpa [last] using this
  subst token
  simp only [Token.isSemicolon, Token.closesBrace, Token.isSeparator, Bool.and_eq_true,
    beq_iff_eq, Piece.token] at ends
  simp only [Piece.isSealed, Bool.and_eq_true, decide_eq_true_eq, bne_iff_ne, ne_eq]
  rcases ends with ends | ends
  · exact ⟨of_decide_eq_true ends.1, by rw [ends.2]; decide⟩
  · exact ⟨of_decide_eq_true ends.1, by rw [ends.2]; decide⟩

/-- Items that are closed are scanned whatever is put behind them. -/
theorem Scan.Fits.of_isClosed {ps : List Piece} {s : Text} (fits : Fits ps s)
    (closed : Item.IsClosed (ps.map Piece.token)) (t : Text) : Fits ps t :=
  fits.exchange_sealed (fun _ => isSealed_last closed) t

theorem isClosed_itemsFrom {items : List (List Piece)}
    (closed : ∀ ps ∈ items, Item.IsClosed (ps.map Piece.token)) (p : Position) :
    ∀ item ∈ itemsFrom p items, item.IsClosed := by
  induction items generalizing p with
  | nil => simp [itemsFrom]
  | cons ps items ih =>
    rw [List.forall_mem_cons] at closed
    simp only [itemsFrom, List.forall_mem_cons]
    refine ⟨?_, ih closed.2 _⟩
    rw [← Item.isClosed_bare, bare_tokensFrom]
    exact closed.1

theorem scanned_of_closed {items : List (List Piece)} {tail : Text}
    (plain : (source items.flatten ++ tail).IsPlain) (fits : Fits items.flatten tail)
    (isTail : Token.IsTail tail)
    (closed : ∀ ps ∈ items, Item.IsClosed (ps.map Piece.token)) :
    Scanned (source items.flatten ++ tail) items tail where
  plain := plain
  whole := rfl
  fits := fits
  isTail := isTail
  nonempty := by
    rintro _ mem rfl
    exact (closed [] mem).ne_nil rfl
  grouped := by
    have grouped := Item.group_of_flatten (isClosed_itemsFrom closed .start)
    rwa [flatten_itemsFrom] at grouped
  closed := fun ps mem => closed ps (List.dropLast_subset items mem)

namespace CompilationUnit

def blocksOf (items : List (List Piece)) (tail : Text) : List Block :=
  blocksFrom .nothing .start tail items

def restOf (items : List (List Piece)) (tail : Text) : Text :=
  restFrom .nothing .start tail items

/-- The unit that a text with these blocks is parsed as. -/
def ofBlocks (code : Text) (blocks : List Block) : CompilationUnit :=
  ofEntries code (Block.entries (.ofText code) 0 blocks)

theorem follows_nothing (gap : Text) : Follows [] none .nothing gap where
  nothing := by simp
  ended := by simp
  cut := by simp

theorem parse_eq_ok {s : Text} {u : CompilationUnit} : parse s = .ok u ↔
    ∃ ts entries, tokenize s.unifyBreaks = .ok ts ∧
      entriesFrom s.unifyBreaks (.ofText s.unifyBreaks) 0 none (Item.group ts) = .ok entries ∧
      ofEntries s.unifyBreaks entries = u := by
  rw [parse]
  constructor
  · intro parsed
    split at parsed
    · cases parsed
    · rename_i ts read
      obtain ⟨entries, listed, made⟩ := bind_eq_ok.1 parsed
      exact ⟨ts, entries, read, listed, Except.ok.inj made⟩
  · rintro ⟨ts, entries, read, listed, rfl⟩
    simp only [read, listed, ok_bind]
    rfl

/-- A scanned text whose tokens are found where they stand is parsed into its blocks. -/
theorem parse_eq {code : Text} {items : List (List Piece)} {tail : Text}
    (scanned : Scanned code items tail) (placed : Placed code items.flatten) {text : Text}
    (unified : text.unifyBreaks = code) :
    parse text = .ok (ofBlocks code (blocksOf items tail)) := by
  have ran : run code = (items.flatten, .done tail) := by
    rw [scanned.whole, run_of_fits scanned.fits, run_tail scanned.isTail, List.append_nil]
  have read : tokenize code = .ok (tokens items.flatten) := by
    rw [tokenize, Text.decodeEscapes_of_isPlain scanned.plain, ok_bind, ran]
    rfl
  have entries := entriesFrom_eq [] scanned.whole scanned.fits scanned.nonempty placed
    (follows_nothing _)
  simp only [source_nil, List.length_nil, positionFrom, Preceding.taken, Nat.add_zero] at entries
  rw [← scanned.grouped] at entries
  rw [← unified] at read entries ⊢
  exact parse_eq_ok.2 ⟨_, _, read, entries, rfl⟩

theorem run_eq {code : Text} {items : List (List Piece)} {tail : Text}
    (scanned : Scanned code items tail) : run code = (items.flatten, .done tail) := by
  rw [scanned.whole, run_of_fits scanned.fits, run_tail scanned.isTail, List.append_nil]

/-- What a text is parsed as, when its tokens are found where they stand. -/
theorem exists_scanned_of_parse {text : Text} {u : CompilationUnit}
    (plain : text.unifyBreaks.IsPlain) (parsed : parse text = .ok u)
    (placed : Placed u.code (run u.code).1) :
    ∃ items tail, Scanned u.code items tail ∧ u = ofBlocks u.code (blocksOf items tail) := by
  obtain ⟨read, entries, ok, -, made⟩ := parse_eq_ok.1 parsed
  have code : u.code = text.unifyBreaks := by
    rw [← made]
    rfl
  obtain ⟨items, tail, scanned, -⟩ := exists_scanned plain ok
  rw [← code] at scanned
  rw [run_eq scanned] at placed
  have whole := parse_eq scanned placed code.symm
  rw [parsed, Except.ok.injEq] at whole
  exact ⟨items, tail, scanned, whole⟩

end CompilationUnit

end JavaUnits
