import JavaUnits.Proofs.Singles

/-!
Merges of sources of one type each. What comes out are the imports, then the types that are not
chosen, without `public`, and then the chosen one.
-/

namespace JavaUnits

open CodePoint Token Scan Text CompilationUnit

/-! ## Sources that can be merged -/

theorem Merge.exists_extracted {sources : Files}
    (parsed : ∀ file ∈ sources, ∃ u, parse file.2 = .ok u)
    (noReturn : ∀ file ∈ sources, ofChar '\r' ∉ file.2) :
    ∃ defined es, definedNames sources = .ok defined ∧ Extracted sources defined es := by
  obtain ⟨names, named⟩ := @exists_forall₂ (List Text) (Text × Text)
    (fun names file => declaredNames file.2 = .ok names) sources (by
      intro file mem
      obtain ⟨u, ok⟩ := parsed file mem
      obtain ⟨tokens, read⟩ := exists_tokenize_of_parse ok
      rw [unifyBreaks_of_notMem (noReturn file mem)] at read
      refine ⟨_, bind_eq_ok.2 ⟨tokens, ?_, rfl⟩⟩
      rw [mergeBreaks_of_notMem (noReturn file mem), read])
  have defined := definedNames_of_declared named.flip
  obtain ⟨es, extracted⟩ := @exists_forall₂ Extract (Text × Text)
    (fun e file => ∃ u, parse file.2 = .ok u ∧ e = .ofUnit file.1 names.flatten u) sources
    fun file mem => (parsed file mem).elim fun u ok => ⟨_, u, ok, rfl⟩
  exact ⟨_, es, defined, extracted.flip⟩

namespace Single

variable {x : Single} {u : CompilationUnit}

theorem IsSound.isWhole (sound : x.IsSound) : x.text.IsWhole := by
  obtain ⟨scanned, placed⟩ := sound.scanned
  have unified := unifyBreaks_of_notMem sound.noReturn
  have all : ∀ item ∈ x.text.items, item.Returns ∧ item.Detaches ∧
      (∀ t ∈ item, ofChar '\n' ∉ t.value) ∧ item.IsClosed := by
    rw [scanned.items_eq unified]
    intro item mem
    have plain := scanned.plain_values item mem
    have bare := List.mem_map_of_mem (f := List.map Token.bare) mem
    rw [bare_itemsFrom] at bare
    obtain ⟨ps, inside, same⟩ := List.mem_map.1 bare
    have isPiece {p : Piece} (mem : p ∈ ps) : p ∈ x.pieces := by
      rw [← x.flatten_items]
      exact List.mem_flatten_of_mem inside mem
    have isToken {t : Token} (mem : t ∈ item) : ∃ p ∈ x.pieces, p.token = t.bare := by
      have mem := List.mem_map_of_mem (f := Token.bare) mem
      rw [← same] at mem
      obtain ⟨p, here, token⟩ := List.mem_map.1 mem
      exact ⟨p, isPiece here, token⟩
    have declaration := sound.declaration ps inside
    refine ⟨?_, ?_, fun t mem => ?_, ?_⟩
    · rw [← Item.returns_bare, ← same]
      refine declaration.returns (fun t mem => ?_) fun t mem => ?_
      · obtain ⟨p, here, rfl⟩ := List.mem_map.1 mem
        exact sound.fits.isLexed p (isPiece here)
      · rw [same] at mem
        obtain ⟨t, here, rfl⟩ := List.mem_map.1 mem
        exact plain t here
    · rw [← Item.detaches_bare, ← same]
      exact declaration.detaches
    · obtain ⟨p, here, token⟩ := isToken mem
      have value : p.lexeme = t.value := congrArg Token.value token
      exact value ▸ sound.solid p here
    · rw [← Item.isClosed_bare, ← same]
      exact declaration.isClosed
  have isPlaced : x.text.IsPlaced := by
    refine ⟨unified.symm ▸ sound.plain, unified.symm ▸ ?_⟩
    rw [sound.ran, ← x.flatten_items]
    exact placed
  exact ⟨⟨isPlaced, fun item mem => (all item mem).1, fun item mem => (all item mem).2.1⟩,
    fun item mem => (all item mem).2.2.1, fun item mem => (all item mem).2.2.2⟩

theorem IsSound.exists_importLine (sound : x.IsSound)
    (outlines : u.Outlines (x.directives.map (List.map Piece.token) ++ [x.declared.tokens]))
    {i : Import} (mem : i ∈ u.imports) : ∃ ps, IsImportLine i.text ps := by
  have none : Item.import? x.declared.tokens = none := by
    rw [Item.import?, sound.declares.sound.role]
    rfl
  rw [outlines.imports, List.filterMap_append, List.filterMap_cons, none, List.filterMap_nil,
    List.append_nil] at mem
  obtain ⟨item, inside, found⟩ := List.mem_filterMap.1 mem
  obtain ⟨role, rfl⟩ := Item.import?_eq_some found
  obtain ⟨ps, isDirective, rfl⟩ := List.mem_map.1 inside
  have isPiece {p : Piece} (mem : p ∈ ps) : p ∈ x.pieces :=
    List.mem_append_left _ (List.mem_flatten_of_mem isDirective mem)
  rcases sound.directives ps isDirective with package | isImport
  · rw [package.role] at role
    cases role
  · obtain ⟨qs, isLine, -⟩ := JavaUnits.exists_importLine isImport
      (fun p mem => sound.fits.isLexed p (isPiece mem)) fun p mem => sound.solid p (isPiece mem)
    exact ⟨qs, isLine⟩

theorem IsSound.mainClassName (sound : x.IsSound)
    (outlines : u.Outlines (x.directives.map (List.map Piece.token) ++ [x.declared.tokens]))
    (path : Text) (defined : List Text) : (Extract.ofUnit path defined u).mainClassName
      = if x.declared.header.declaresMain then some x.name else none := by
  have none : (x.directives.map (List.map Piece.token)).filterMap Item.header? = [] := by
    refine List.filterMap_eq_nil_iff.2 fun item mem => ?_
    obtain ⟨ps, inside, rfl⟩ := List.mem_map.1 mem
    rcases sound.directives ps inside with package | isImport
    · rw [Item.header?, package.role]
      rfl
    · rw [Item.header?, isImport.role]
      rfl
  have headers := outlines.headers
  rw [List.filterMap_append, none, List.nil_append, List.filterMap_cons, Item.header?,
    sound.declares.sound.role] at headers
  obtain ⟨t, single, same⟩ := List.map_eq_singleton_iff.1 headers
  have isPublic : t.isPublic = true := by
    rw [TypeDecl.isPublic, ← Header.visibility_bare, same, Header.visibility_bare, sound.isPublic]
    rfl
  have name : t.header.bare.name = x.declared.header.bare.name := by rw [same]
  have main : t.header.bare.declaresMain = x.declared.header.bare.declaresMain := by rw [same]
  have name : t.name = x.name := name
  have main : t.header.declaresMain = x.declared.header.declaresMain := main
  rw [mainClassName_of_single single isPublic, name, main]

def Gives (defined : List Text) (x : Single) (e : Extract) : Prop :=
  ∃ u, parse x.text = .ok u ∧ e = .ofUnit x.file.1 defined u

theorem extracted_iff {defined : List Text} {xs : List Single} {es : List Extract} :
    Merge.Extracted (xs.map file) defined es ↔ List.Forall₂ (Gives defined) xs es := by
  rw [Merge.Extracted, List.forall₂_map_left_iff]
  rfl

section

variable {defined : List Text} {xs : List Single} {es : List Extract} {e : Extract}

theorem Gives.body_eq (sound : x.IsSound) (gives : Gives defined x e) (demoted : Bool) :
    (if demoted then e.demotedBody else e.body) = x.taken demoted := by
  obtain ⟨u, parsed, rfl⟩ := gives
  obtain ⟨u', parsed', -, body⟩ := sound.exists_parse
  obtain rfl := Except.ok.inj (parsed.symm.trans parsed')
  rw [← body]
  cases demoted <;> rfl

theorem Gives.isCandidate (sound : x.IsSound) (gives : Gives defined x e) :
    e.isCandidate = x.declared.header.declaresMain := by
  obtain ⟨u, parsed, rfl⟩ := gives
  obtain ⟨u', parsed', outlines, -⟩ := sound.exists_parse
  obtain rfl := Except.ok.inj (parsed.symm.trans parsed')
  rw [Extract.isCandidate, sound.mainClassName outlines]
  cases x.declared.header.declaresMain <;> rfl

theorem exists_importLines (sound : ∀ x ∈ xs, x.IsSound)
    (gives : List.Forall₂ (Gives defined) xs es) (c : Merge.Choice) :
    ∃ imports, List.Forall₂ IsImportLine (Merge.ofChoice es c).imports imports := by
  obtain ⟨imports, all⟩ := @exists_forall₂ (List Piece) Text (fun ps line => IsImportLine line ps)
    (Merge.ofChoice es c).imports (by
      intro line mem
      obtain ⟨e, inside, i, imported, rfl⟩ := Merge.mem_imports.1 mem
      obtain ⟨x, isSource, u, parsed, rfl⟩ := exists_left_of_mem gives inside
      obtain ⟨u', parsed', outlines, -⟩ := (sound x isSource).exists_parse
      obtain rfl := Except.ok.inj (parsed.symm.trans parsed')
      exact (sound x isSource).exists_importLine outlines (List.mem_filter.1 imported).1)
  exact ⟨imports, all.flip⟩

end

end Single

namespace Merge

variable {before after : List Single} {main : Single} {defined : List Text} {c : Choice}

/-- Whether the choice is made among what is taken from the sources. -/
structure Picks (defined : List Text) (before : List Single) (main : Single) (after : List Single)
    (c : Choice) : Prop where
  before : List.Forall₂ (Single.Gives defined) before c.before
  chosen : Single.Gives defined main c.chosen
  after : List.Forall₂ (Single.Gives defined) after c.after

namespace Picks

theorem all (picks : Picks defined before main after c) :
    List.Forall₂ (Single.Gives defined) (before ++ main :: after) c.all :=
  List.rel_append picks.before (.cons picks.chosen picks.after)

theorem others (picks : Picks defined before main after c) :
    List.Forall₂ (Single.Gives defined) (before ++ after) c.others :=
  List.rel_append picks.before picks.after

theorem content_eq (picks : Picks defined before main after c)
    (sound : ∀ x ∈ before ++ main :: after, x.IsSound) (es : List Extract) :
    (ofChoice es c).content = importPart (ofChoice es c).imports
      ++ (((before ++ after).flatMap fun x => ofLines (x.taken true) ++ [ofChar '\n', ofChar '\n'])
        ++ (ofLines (main.taken false) ++ [ofChar '\n'])) := by
  have isSound : ∀ x ∈ before ++ after, x.IsSound := fun x mem =>
    sound x (by simp only [List.mem_append, List.mem_cons] at mem ⊢; tauto)
  have chosen := Single.Gives.body_eq (sound main (by simp)) picks.chosen false
  have taken : (before ++ after).map (Single.taken true) = c.others.map Extract.demotedBody :=
    map_eq_map_of_forall₂ picks.others fun x mem _ _ gives =>
      (Single.Gives.body_eq (isSound x mem) gives true).symm
  have more : c.others.filter (fun e => !e.demotedBody.isEmpty) = c.others := by
    refine List.filter_eq_self.2 fun e mem => ?_
    obtain ⟨x, inside, gives⟩ := exists_left_of_mem picks.others mem
    have body : e.demotedBody = x.taken true := Single.Gives.body_eq (isSound x inside) gives true
    rw [body]
    simpa using (isSound x inside).taken_ne_nil true
  have body : c.chosen.body = main.taken false := chosen
  rw [ofChoice, assemble_eq, importPart, more, ← taken, body]
  simp [List.flatMap_map]

theorem isPlain_content (picks : Picks defined before main after c)
    (sound : ∀ x ∈ before ++ main :: after, x.IsSound) :
    (ofChoice c.all c).content.IsPlain ∧ ofChar '\r' ∉ (ofChoice c.all c).content := by
  have legible : ∀ file ∈ (before ++ main :: after).map Single.file, file.2.IsLegible := by
    intro file mem
    obtain ⟨x, inside, rfl⟩ := List.mem_map.1 mem
    exact (sound x inside).isWhole.legible
  have extracted := Single.extracted_iff.2 picks.all
  exact ⟨(extracted.reads_content legible rfl).isPlain, extracted.notMem_content legible rfl⟩

end Picks

/-- Sources of which one declares a main method can be merged under any policy. -/
theorem exists_picks {p : Policy} {asked : Option Text} {configured : Text}
    (policy : Merge.policy asked configured = .ok p)
    (sound : ∀ x ∈ before ++ main :: after, x.IsSound)
    (isMain : main.declared.header.declaresMain = true)
    (others : ∀ x ∈ before ++ after, x.declared.header.declaresMain = false) :
    ∃ defined c, definedNames ((before ++ main :: after).map Single.file) = .ok defined ∧
      merge ((before ++ main :: after).map Single.file) asked configured = .ok (ofChoice c.all c) ∧
      Picks defined before main after c := by
  obtain ⟨defined, es, names, extracted⟩ := @exists_extracted
    ((before ++ main :: after).map Single.file) (by
      intro file mem
      obtain ⟨x, inside, rfl⟩ := List.mem_map.1 mem
      obtain ⟨u, parsed, -⟩ := (sound x inside).exists_parse
      exact ⟨u, parsed⟩) (by
      intro file mem
      obtain ⟨x, inside, rfl⟩ := List.mem_map.1 mem
      exact (sound x inside).noReturn)
  obtain ⟨bs, e, as, rfl, front, chosen, back⟩ :=
    exists_split_left (Single.extracted_iff.1 extracted).flip
  have picks : Picks defined before main after ⟨bs, e, as⟩ := ⟨front.flip, chosen, back.flip⟩
  have candidate : e.isCandidate = true := by
    rw [Single.Gives.isCandidate (sound main (by simp)) chosen, isMain]
  have none : ∀ e ∈ bs ++ as, e.isCandidate = false := by
    intro e mem
    obtain ⟨x, inside, given⟩ := exists_left_of_mem picks.others mem
    have isSound := sound x (by simp only [List.mem_append, List.mem_cons] at inside ⊢; tauto)
    rw [Single.Gives.isCandidate isSound given, others x inside]
  exact ⟨defined, ⟨bs, e, as⟩, names, merge_of_extracted policy (by simp) names extracted
    (Choice.make_of_alone p candidate none), picks⟩

end Merge

end JavaUnits
