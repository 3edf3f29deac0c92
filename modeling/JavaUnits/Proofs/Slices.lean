import JavaUnits.Proofs.Scalars

/-!
The slices of a text between its type boundaries. Where no type begins in a comment, each slice is
read by itself, and the slices one after another as the text from its first type on.
-/

namespace JavaUnits

open CodePoint Token Scan Span Text CompilationUnit

namespace Block

/-- The items up to the next type. -/
def heldItems : List Block → List Item
  | [] => []
  | b :: bs => if b.role.isType then [] else b.item :: heldItems bs

/-- What stands behind a type up to the next one, the directives included. -/
def heldText (rest : Text) (bs : List Block) : Text :=
  Stretch.before (ownedStretches rest bs)

/-- The texts from each type to the next. -/
def slices (rest : Text) : List Block → List Text
  | [] => []
  | b :: bs =>
    if b.role.isType then (source b.pieces ++ heldText rest bs) :: slices rest bs
    else slices rest bs

variable {rest : Text} {b : Block} {bs : List Block}

theorem heldText_nil (rest : Text) : heldText rest [] = rest := by
  simp [heldText, ownedStretches, Stretch.before, Stretch.old]

theorem heldText_type (isType : b.role.isType = true) (rest : Text) (bs : List Block) :
    heldText rest (b :: bs) = b.kept := by
  simp [heldText, ownedStretches, isType, Stretch.before, Stretch.old]

theorem heldText_other (other : b.role.isType = false) (sound : b.IsSound) (rest : Text)
    (bs : List Block) : heldText rest (b :: bs) = b.text ++ heldText rest bs := by
  rw [heldText, ownedStretches, other, if_neg Bool.false_ne_true, Stretch.before_append,
    before_stretches sound b.amends_unchanged]
  rfl

theorem heldText_prefix (rest : Text) (sound : ∀ b ∈ bs, b.IsSound) :
    ∃ later, bs.flatMap text ++ rest = heldText rest bs ++ later := by
  obtain ⟨-, before, -⟩ := owned_later rest sound [] 0
  rw [Stretch.before_append] at before
  exact ⟨_, before.symm⟩

/-- What is known of a block in a text in which no type begins in a comment. -/
structure Closes (rest : Text) (bs : List Block) (b : Block) : Prop extends b.Stands rest bs where
  gap : IsGap b.kept
  blank : ∀ c ∈ b.taken, c.isBlank = true
  closes : (∀ t, Fits (regap [] b.pieces) t) ∨
    bs = [] ∧ Fits (regap [] b.pieces) (b.taken ++ rest)

/-- An item is read where it stands, with what is cut out behind it and what follows up to the next
type. -/
theorem Closes.reads_source (closes : b.Closes rest bs) (ending : Reads rest []) {ts : List Token}
    (later : Reads (heldText rest bs) ts) :
    Reads (source b.pieces ++ (b.taken ++ heldText rest bs)) (b.item.map Token.bare ++ ts) := by
  have plain := closes.plain_pieces closes.gap
  have taken : Opens b.taken [] := by
    refine opens_gap (.of_blank closes.blank) (isPlain_of_noBackslash fun mem => ?_)
    exact absurd (closes.blank _ mem) (by decide)
  rw [← closes.sound.tokens]
  rcases closes.closes with fits | ⟨rfl, fits⟩
  · exact (opens_source (fun t => closes.fits_of_regap closes.gap (fits t)) plain).append_reads
      (taken.append_reads later)
  · rw [heldText_nil] at later ⊢
    obtain rfl := later.unique ending
    rw [List.append_nil]
    exact Text.reads_source (closes.fits_of_regap closes.gap fits) plain (taken.append_reads later)

theorem reads_heldText (closes : ∀ xs b ys, bs = xs ++ b :: ys → b.Closes rest ys)
    (ending : Reads rest []) :
    Reads (heldText rest bs) ((heldItems bs).flatten.map Token.bare) := by
  induction bs with
  | nil =>
    rw [heldText_nil]
    exact ending
  | cons b bs ih =>
    have here := closes [] b bs rfl
    have later := ih fun xs c ys split => closes (b :: xs) c ys (by rw [split]; rfl)
    have kept := here.opens_kept here.gap
    cases isType : b.role.isType with
    | true =>
      rw [heldText_type isType, heldItems, if_pos isType]
      exact kept.reads
    | false =>
      rw [heldText_other isType here.sound, heldItems, isType, if_neg Bool.false_ne_true, text,
        List.flatten_cons, List.map_append]
      have reads := kept.append_reads (here.reads_source ending later)
      simpa only [List.append_assoc, List.nil_append] using reads

/-- The items from the first type on. -/
def itemsFromType : List Block → List Item
  | [] => []
  | b :: bs => if b.role.isType then b.item :: bs.map Block.item else itemsFromType bs

theorem heldItems_append (bs : List Block) :
    heldItems bs ++ itemsFromType bs = bs.map Block.item := by
  induction bs with
  | nil => rfl
  | cons b bs ih =>
    rw [heldItems, itemsFromType]
    split
    · rfl
    · rw [List.cons_append, ih, List.map_cons]

/-- Each slice is read by itself, and all of them as the items from the first type on. -/
theorem reads_slices (closes : ∀ xs b ys, bs = xs ++ b :: ys → b.Closes rest ys)
    (ending : Reads rest []) :
    (∀ slice ∈ slices rest bs, Reads slice slice.read) ∧
      (slices rest bs).flatMap read = (itemsFromType bs).flatten.map Token.bare := by
  induction bs with
  | nil => exact ⟨nofun, rfl⟩
  | cons b bs ih =>
    have here := closes [] b bs rfl
    have behind := fun xs c ys (split : bs = xs ++ c :: ys) =>
      closes (b :: xs) c ys (by rw [split]; rfl)
    obtain ⟨each, all⟩ := ih behind
    rw [slices, itemsFromType]
    cases isType : b.role.isType with
    | false => exact ⟨each, all⟩
    | true =>
      have nothing : b.taken = [] := by
        apply here.sound.taken
        cases role : b.role <;> simp_all [Role.isType, Role.isDirective]
      have reads := here.reads_source ending (reads_heldText behind ending)
      rw [nothing, List.nil_append] at reads
      have same := reads.read_eq
      rw [if_pos rfl, if_pos rfl, List.flatMap_cons, all, same, List.append_assoc,
        ← List.map_append,
        ← List.flatten_append, heldItems_append, List.flatten_cons, List.map_append]
      exact ⟨List.forall_mem_cons.2 ⟨same ▸ reads, each⟩, rfl⟩

theorem slices_typesOf {code : Text} (cuts : List Span) (layout : Layout) (front : Text)
    (sound : ∀ b ∈ bs, b.IsSound) (whole : code = front ++ (bs.flatMap text ++ rest)) :
    (typesOf code cuts ((entries layout front.length bs).filterMap CompilationUnit.Entry.type?)).map
        (fun t => code.slice t.span.start t.span.stop) = slices rest bs := by
  induction bs generalizing front with
  | nil => rfl
  | cons b bs ih =>
    rw [List.forall_mem_cons] at sound
    have later := ih (front ++ b.text) sound.2 (by rw [whole]; simp)
    rw [List.length_append] at later
    rw [entries, List.filterMap_cons, slices]
    cases isType : b.role.isType with
    | false =>
      rw [type?_eq_none isType]
      exact later
    | true =>
      obtain ⟨h, role⟩ := Role.exists_of_isType isType
      have nothing : b.taken = [] := sound.1.taken (by rw [role]; rfl)
      obtain ⟨behind, held⟩ := heldText_prefix rest sound.2
      have stop := nextStart rest sound.2 layout (front.length + b.text.length)
      have length : front.length + b.text.length + (bs.flatMap text ++ rest).length
          = code.length := by
        rw [whole]
        simp only [List.flatMap_cons, List.length_append]
        omega
      rw [length] at stop
      have code : code = front ++ b.kept ++ (source b.pieces ++ heldText rest bs ++ behind) := by
        rw [whole, List.flatMap_cons, List.append_assoc, held, text, nothing]
        simp
      simp only [entry, role, CompilationUnit.Entry.type?, typesOf, List.map_cons, later, if_true,
        stop]
      congr 1
      have stop : front.length + b.text.length + (heldText rest bs).length
          = (front ++ b.kept).length + (source b.pieces ++ heldText rest bs).length := by
        simp only [text, nothing, List.length_append, List.length_nil]
        omega
      have slice := slice_of_append (front ++ b.kept)
        (source b.pieces ++ heldText rest bs) behind stop
      rw [← code, List.length_append] at slice
      exact slice

theorem itemsFromType_eq (sound : ∀ b ∈ bs, b.IsSound) :
    itemsFromType bs = (bs.map item).dropWhile fun item => item.header?.isNone := by
  induction bs with
  | nil => rfl
  | cons b bs ih =>
    rw [List.forall_mem_cons] at sound
    have isType : b.item.header?.isNone = !b.role.isType := by
      rw [Item.header?, ← sound.1.role]
      cases b.role <;> rfl
    rw [itemsFromType, List.map_cons, List.dropWhile_cons, isType, ih sound.2]
    cases b.role.isType <;> rfl

end Block

theorem Scanned.closes {code tail : Text} {items : List (List Piece)}
    (scanned : Scanned code items tail) (apart : (ofBlocks code (blocksOf items tail)).IsApart) :
    ∀ xs b ys, blocksOf items tail = xs ++ b :: ys → b.Closes (restOf items tail) ys := by
  intro xs b ys split
  refine ⟨scanned.stands split, scanned.isGap_of_isApart apart b (by simp [split]), ?_,
    scanned.fits_block split⟩
  obtain ⟨fronts, ps, backs, pre, -, rfl, -⟩ := blocksFrom_eq_append scanned.nonempty split
  exact fun c => isBlank_of_mem_taken

/-- Where every token is found where it stands and no type begins in a comment, the text of each
type is read by itself, and the texts of all types as the tokens from the first type on. -/
theorem CompilationUnit.read_slices {s : Text} {u : CompilationUnit} (isPlaced : s.IsPlaced)
    (parsed : parse s = .ok u) (apart : u.IsApart) :
    (∀ t ∈ u.types, (tokenize (u.code.slice t.span.start t.span.stop)).isOk = true) ∧
    u.types.flatMap (fun t => read (u.code.slice t.span.start t.span.stop))
      = (s.items.dropWhile fun item => item.header?.isNone).flatten.map Token.bare := by
  obtain ⟨items, tail, scanned, -, whole, same⟩ := isPlaced.exists_scanned parsed
  rw [whole] at apart
  have closes := scanned.closes apart
  have sound : ∀ b ∈ blocksOf items tail, b.IsSound := by
    intro b mem
    obtain ⟨xs, ys, split⟩ := List.append_of_mem mem
    exact (scanned.stands split).sound
  have slices := Block.slices_typesOf
    ((Block.entries (.ofText u.code) 0 (blocksOf items tail)).filterMap CompilationUnit.Entry.cut?)
    (.ofText u.code) [] sound scanned.text
  have slices : u.types.map (fun t => u.code.slice t.span.start t.span.stop)
      = Block.slices (restOf items tail) (blocksOf items tail) := by
    conv => lhs; arg 2; rw [whole]
    exact slices
  obtain ⟨each, all⟩ := Block.reads_slices closes scanned.reads_rest
  rw [← slices] at each all
  refine ⟨fun t mem => ?_, ?_⟩
  · obtain ⟨tokens, ok, -⟩ := tokenize_of_reads (each _ (List.mem_map_of_mem mem))
    rw [ok]
    rfl
  · rw [List.flatMap_map] at all
    rw [all, Block.itemsFromType_eq sound, same, blocksOf, item_blocksFrom]

/-- Comments before, between and behind types, some of them on a line with another. -/
def annotatedMargins : Text :=
  "// head\nimport a.B; class A \x7b char c = '\x7d'; \x7d /* b */ class B \x7b\x7d // c\n;\n"
    ++ "/* d\n */\nimport c.D; @E\ninterface F \x7b\x7d /* f */"

theorem CompilationUnit.read_slices_annotatedMargins : ∃ u, parse annotatedMargins = .ok u ∧
    annotatedMargins.IsPlaced ∧ u.IsApart ∧ u.types.length = 3 ∧
    (∀ t ∈ u.types, (tokenize (u.code.slice t.span.start t.span.stop)).isOk = true) ∧
    u.types.flatMap (fun t => read (u.code.slice t.span.start t.span.stop))
      = (annotatedMargins.items.dropWhile fun item =>
          item.header?.isNone).flatten.map Token.bare := by
  obtain ⟨plain, solid⟩ : annotatedMargins.unifyBreaks.IsPlain ∧
      ∀ p ∈ (run annotatedMargins.unifyBreaks).1, ofChar '\n' ∉ p.lexeme := by
    rw [annotatedMargins, ofString_ofList, ofString_ofList]
    decide +kernel
  have isPlaced : annotatedMargins.IsPlaced := ⟨plain, placed_run solid⟩
  obtain ⟨u, there, apart, three⟩ : ∃ u ∈ (parse annotatedMargins).toOption,
      u.IsApart ∧ u.types.length = 3 := by
    rw [annotatedMargins, ofString_ofList, ofString_ofList]
    decide +kernel
  have parsed := toOption_eq_some.1 there
  exact ⟨u, parsed, isPlaced, apart, three, read_slices isPlaced parsed apart⟩

/-- A comment that ends on the line on which the second type begins. -/
def overhanging : Text :=
  "class A \x7b\x7d\n/* b\n */ class B \x7b\x7d\n"

/-- The text of the first type has the comment's first line alone, and is not read. -/
theorem CompilationUnit.read_slices_overhanging : ∃ u, parse overhanging = .ok u ∧
    overhanging.IsPlaced ∧
    ∃ t ∈ u.types, (tokenize (u.code.slice t.span.start t.span.stop)).isOk = false := by
  obtain ⟨plain, solid⟩ : overhanging.unifyBreaks.IsPlain ∧
      ∀ p ∈ (run overhanging.unifyBreaks).1, ofChar '\n' ∉ p.lexeme := by
    decide +kernel
  obtain ⟨u, there, unread⟩ : ∃ u ∈ (parse overhanging).toOption,
      ∃ t ∈ u.types, (tokenize (u.code.slice t.span.start t.span.stop)).isOk = false := by
    decide +kernel
  exact ⟨u, toOption_eq_some.1 there, ⟨plain, placed_run solid⟩, unread⟩

end JavaUnits
