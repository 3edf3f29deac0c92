import JavaUnits.Proofs.SingleMerges

/-!
Merging sources of one public type and splitting what comes out gives every type back to its own
file, with the imports of all.
-/

namespace JavaUnits

open CodePoint Token Scan Text CompilationUnit

theorem Single.exists_passages {xs : List Single} (sound : ∀ x ∈ xs, x.IsSound ∧ x.IsSpaced)
    {breaks : Text} (isBreaks : breaks = [ofChar '\n'] ∨ breaks = [ofChar '\n', ofChar '\n'])
    (demoted : Bool) : ∃ ws : List (Written × TypeSyntax),
      (ws.flatMap fun w => w.1.text) = (xs.flatMap fun x => ofLines (x.taken demoted) ++ breaks) ∧
      List.Forall₂ (fun w x => w.1.IsPassage w.2 ∧ w.2.header.name = x.name ∧
        stripRight w.1.published.text = stripRight x.type.text) ws xs := by
  induction xs with
  | nil => exact ⟨[], rfl, .nil⟩
  | cons x xs ih =>
    rw [List.forall_mem_cons] at sound
    obtain ⟨ws, text, all⟩ := ih sound.2
    obtain ⟨w, d, whole, is⟩ := sound.1.1.exists_passage sound.1.2 isBreaks demoted
    exact ⟨(w, d) :: ws, by rw [List.flatMap_cons, List.flatMap_cons, text, whole], .cons is all⟩

/-- The files of the content of a merge are the types of the sources, those of the sources first
that are not chosen. -/
theorem Merge.Picks.split_content {before after : List Single} {main : Single}
    {defined : List Text} {c : Choice} (picks : Picks defined before main after c)
    (sound : ∀ x ∈ before ++ main :: after, x.IsSound ∧ x.IsSpaced)
    (distinct : ((before ++ main :: after).map Single.name).Nodup) :
    ∃ result, split (ofChoice c.all c).content = .ok result ∧
      result.files = (before ++ after ++ [main]).map fun x => (x.name ++ sourceExtension,
        importPart (ofChoice c.all c).imports ++ (stripRight x.type.text ++ [ofChar '\n'])) := by
  have isSound : ∀ x ∈ before ++ main :: after, x.IsSound := fun x mem => (sound x mem).1
  obtain ⟨ws, textOthers, allOthers⟩ := @Single.exists_passages (before ++ after) (fun x mem =>
    sound x (by simp only [List.mem_append, List.mem_cons] at mem ⊢; tauto)) _ (.inr rfl) true
  obtain ⟨vs, textMain, allMain⟩ := @Single.exists_passages [main]
    (by simpa using sound main (by simp)) _ (.inl rfl) false
  obtain ⟨imports, lines⟩ := Single.exists_importLines isSound picks.all c
  have all := List.rel_append allOthers allMain
  have content : (ofChoice c.all c).content
      = importPart (ofChoice c.all c).imports ++ (ws ++ vs).flatMap fun w => w.1.text := by
    rw [picks.content_eq isSound, ← textOthers, @List.flatMap_append _ _ ws, textMain,
      List.flatMap_singleton]
  obtain ⟨plain, noReturn⟩ := picks.isPlain_content isSound
  rw [content] at plain noReturn ⊢
  obtain ⟨result, ran, files⟩ := split_written lines (fun w mem => by
      obtain ⟨x, -, is⟩ := exists_right_of_mem all mem
      exact is.1) plain noReturn (by
      have names : (ws ++ vs).map (fun w => w.2.header.name)
          = (before ++ after ++ [main]).map Single.name :=
        map_eq_map_of_forall₂ all fun w _ x _ is => is.2.1
      rw [names]
      refine (List.Perm.nodup_iff (.map _ ?_)).2 distinct
      rw [List.append_assoc]
      exact (List.perm_append_singleton main after).append_left before)
  refine ⟨result, ran, files.trans ?_⟩
  exact map_eq_map_of_forall₂ all fun w _ x _ is => by rw [is.2.1, is.2.2]

/-- A source of one type, below two imports on one line, with a form feed between them, and a blank
line, and with a comment behind it. -/
def singleA : Single where
  directives := [[⟨"", .keyword, "import"⟩, ⟨" ", .identifier, "p"⟩, ⟨"", .separator, "."⟩,
    ⟨"", .identifier, "Q"⟩, ⟨"", .separator, ";"⟩], [⟨"\x0c", .keyword, "import"⟩,
    ⟨" ", .identifier, "p"⟩, ⟨"", .separator, "."⟩, ⟨"", .identifier, "R"⟩, ⟨"", .separator, ";"⟩]]
  above := "\n\n"
  type := ⟨[], some ⟨"", .modifier, "public"⟩, [⟨" ", .keyword, "class"⟩, ⟨" ", .identifier, "A"⟩,
    ⟨" ", .separator, "\x7b"⟩, ⟨"", .separator, "\x7d"⟩], " // end\n"⟩
  declared := neighbourA.bare

/-- A source of one type that declares a main method. -/
def singleB : Single where
  directives := []
  above := ""
  type := ⟨[], some ⟨"", .modifier, "public"⟩, [⟨" ", .modifier, "final"⟩, ⟨" ", .keyword, "class"⟩,
    ⟨" ", .identifier, "B"⟩, ⟨" ", .separator, "\x7b"⟩, ⟨"\n  ", .modifier, "public"⟩,
    ⟨" ", .modifier, "static"⟩, ⟨" ", .keyword, "void"⟩, ⟨" ", .identifier, "main"⟩,
    ⟨"", .separator, "("⟩, ⟨"", .identifier, "String"⟩, ⟨"", .separator, "["⟩,
    ⟨"", .separator, "]"⟩, ⟨" ", .identifier, "a"⟩, ⟨"", .separator, ")"⟩,
    ⟨" ", .separator, "\x7b"⟩, ⟨"", .separator, "\x7d"⟩, ⟨"\n", .separator, "\x7d"⟩], "\n"⟩
  declared := neighbourB.bare

theorem isSound_singleA : singleA.IsSound ∧ singleA.IsSpaced where
  left := {
    ran := by decide +kernel
    plain := by decide +kernel
    noReturn := by decide +kernel
    solid := by decide +kernel
    directives := by
      refine List.forall_mem_cons.2 ⟨.inr ?_, List.forall_mem_singleton.2 (.inr ?_)⟩ <;>
        exact ⟨_, [], _ :: _ :: [_], [], _, rfl, by decide, .inl rfl, by decide,
          .inl rfl, by decide⟩
    blank := by decide
    apart := .inr (by decide)
    above := by decide
    begins := by decide
    line := by decide
    indent := by decide
    within := by decide
    declares := ⟨(TypeSyntax.isSound_bare _).2 isSound_neighbourA, [],
      ⟨rfl, .nil, .nil, by decide, by decide, by decide⟩, rfl⟩
    isPublic := by decide }
  right := ⟨by decide, by decide, [], rfl, by decide⟩

theorem isSound_singleB : singleB.IsSound ∧ singleB.IsSpaced where
  left := {
    ran := by decide +kernel
    plain := by decide +kernel
    noReturn := by decide +kernel
    solid := by decide +kernel
    directives := by simp [singleB]
    blank := by simp [singleB]
    apart := .inr (by simp [singleB])
    above := by decide
    begins := by decide
    line := .inl rfl
    indent := by decide
    within := by decide
    declares := ⟨(TypeSyntax.isSound_bare _).2 isSound_neighbourB, [⟨.modifier, "final", .start⟩],
      ⟨rfl, .nil, .modifier rfl (by decide) .nil, by decide, by decide, by decide⟩, rfl⟩
    isPublic := by decide }
  right := ⟨by decide, by decide, [⟨.modifier, "final", .start⟩], rfl, by decide⟩

end JavaUnits
