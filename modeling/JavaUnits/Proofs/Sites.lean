import JavaUnits.Proofs.Scalars

/-!
Places by code points. Where every token is found where it is written, one behind another, it does
not matter what stands between them: where the text of a type begins and what is cut out for a
directive is known from the ink around it and the line breaks alone.
-/

namespace JavaUnits

open CodePoint Token Scan Text CompilationUnit

namespace Text

variable {s : Text} {place n : Nat}

theorem getElem?_slice (s : Text) (start stop i : Nat) :
    (s.slice start stop)[i]? = if start + i < stop then s[start + i]? else none := by
  rw [slice, List.getElem?_drop, List.getElem?_take]

theorem getElem?_of_slice_eq {start stop i : Nat} {t : Text} (slice : s.slice start stop = t)
    (inside : i < t.length) : s[start + i]? = t[i]? := by
  have there := s.getElem?_slice start stop i
  rw [slice] at there
  split at there
  · exact there.symm
  · rw [List.getElem?_eq_none_iff] at there
    omega

theorem isBlank_slice {start stop : Nat} (blank : isBlank (s.slice start stop) = true)
    (place : Nat) (after : start ≤ place) (before : place < stop) :
    ∀ c ∈ s[place]?, c.isBlank = true := by
  intro c here
  have there := s.getElem?_slice start stop (place - start)
  rw [show start + (place - start) = place by omega, if_pos before, here] at there
  rw [isBlank, List.all_eq_true] at blank
  exact blank c (List.mem_of_getElem? there)

theorem lineStart_cases (s : Text) (n : Nat) :
    s.lineStart n = 0 ∧ ofChar '\n' ∉ s.take n ∨
      ∃ front, s.take n = front ++ ofChar '\n' :: lastLine (s.take n) ∧
        s.lineStart n = front.length + 1 := by
  have start : s.lineStart n = (s.take n).length - (lastLine (s.take n)).length := by
    simp [lineStart, lastLine]
  by_cases mem : ofChar '\n' ∈ s.take n
  · obtain ⟨front, whole⟩ := eq_append_lastLine mem
    have length := congrArg List.length whole
    rw [List.length_append, List.length_cons] at length
    exact .inr ⟨front, whole, by omega⟩
  · rw [lastLine_of_noBreak mem] at start
    exact .inl ⟨by omega, mem⟩

theorem lineStart_le (s : Text) (n : Nat) : s.lineStart n ≤ n := by
  have : (s.take n).length ≤ n := s.length_take_le n
  simp only [lineStart]
  omega

theorem noBreak_of_lineStart_le (after : s.lineStart n ≤ place) (before : place < n) :
    s[place]? ≠ some (ofChar '\n') := by
  intro isBreak
  have here : (s.take n)[place]? = some (ofChar '\n') := by rwa [List.getElem?_take_of_lt before]
  rcases s.lineStart_cases n with ⟨-, none⟩ | ⟨front, whole, start⟩
  · exact none (List.mem_of_getElem? here)
  · rw [whole, List.getElem?_append_right (by omega)] at here
    obtain ⟨k, within⟩ : ∃ k, place - front.length = k + 1 := ⟨place - front.length - 1, by omega⟩
    rw [within, List.getElem?_cons_succ] at here
    exact break_notMem_lastLine _ (List.mem_of_getElem? here)

theorem break_before_lineStart (more : 0 < s.lineStart n) :
    s[s.lineStart n - 1]? = some (ofChar '\n') := by
  rcases s.lineStart_cases n with ⟨start, -⟩ | ⟨front, whole, start⟩
  · omega
  · have bound := s.lineStart_le n
    rw [← List.getElem?_take_of_lt (i := s.lineStart n - 1) (j := n) (by omega), whole, start,
      Nat.add_sub_cancel, List.getElem?_append_right (Nat.le_refl _), Nat.sub_self]
    rfl

theorem isSpaceOrTab_of_blanksLength {i : Nat} (within : i < blanksLength s) :
    ∃ c, s[i]? = some c ∧ c.isSpaceOrTab = true := by
  obtain ⟨c, here⟩ : ∃ c, (s.takeWhile isSpaceOrTab)[i]? = some c :=
    ⟨_, List.getElem?_eq_getElem within⟩
  refine ⟨c, ?_, List.mem_takeWhile_imp (List.mem_of_getElem? here)⟩
  rw [← List.takeWhile_append_dropWhile (p := isSpaceOrTab) (l := s),
    List.getElem?_append_left within, here]

theorem isSpaceOrTab_behind (after : n ≤ place) (before : place < n + blanksLength (s.drop n)) :
    ∃ c, s[place]? = some c ∧ c.isSpaceOrTab = true := by
  obtain ⟨c, here, blank⟩ := isSpaceOrTab_of_blanksLength (s := s.drop n)
    (i := place - n) (by omega)
  rw [List.getElem?_drop, show n + (place - n) = place by omega] at here
  exact ⟨c, here, blank⟩

theorem le_blanksLength (inside : n ≤ s.length)
    (blank : ∀ i < n, ∀ c ∈ s[i]?, c.isSpaceOrTab = true) : n ≤ blanksLength s := by
  by_contra short
  have all := List.takeWhile_append_dropWhile (p := isSpaceOrTab) (l := s)
  have stops := List.head?_dropWhile_not isSpaceOrTab s
  cases rest : s.dropWhile isSpaceOrTab with
  | nil =>
    rw [rest, List.append_nil] at all
    rw [blanksLength, all] at short
    omega
  | cons c t =>
    rw [rest] at all stops
    have here : (s.takeWhile isSpaceOrTab ++ c :: t)[blanksLength s]? = some c := by
      rw [blanksLength, List.getElem?_append_right (Nat.le_refl _), Nat.sub_self]
      rfl
    rw [all] at here
    have := blank _ (Nat.lt_of_not_le short) c here
    simp [this] at stops

end Text

/-! ## Where items stand -/

/-- A stretch of a text that begins and ends with what shows. -/
structure Inked (code : Text) (start stop : Nat) : Prop where
  less : start < stop
  begins : ∃ c, code[start]? = some c ∧ c.isBlank = false
  ends : ∃ c, code[stop - 1]? = some c ∧ c.isBlank = false

/-- Whether the tokens are found where they are written, one behind another from `start` on. -/
def Sited (code : Text) (start : Nat) : List Token → Prop
  | [] => True
  | t :: ts => ∃ n ∈ (Layout.ofText code).offset? t, start ≤ n ∧
      code.slice n (n + t.value.length) = t.value ∧ Sited code (n + t.value.length) ts

instance Sited.decide (code : Text) (start : Nat) (ts : List Token) :
    Decidable (Sited code start ts) :=
  match ts with
  | [] => inferInstanceAs (Decidable True)
  | t :: ts =>
    have (n : Nat) : Decidable (Sited code n ts) := Sited.decide code n ts
    inferInstanceAs (Decidable (∃ n ∈ (Layout.ofText code).offset? t, start ≤ n ∧
      code.slice n (n + t.value.length) = t.value ∧ Sited code (n + t.value.length) ts))

/-- Where an item stands, with all of its tokens. -/
structure Item.Stands (code : Text) (item : Item) (first stop : Nat) : Prop
    extends Inked code first stop where
  head : ∀ t ∈ item.head?, (Layout.ofText code).offset? t = some first
  final : ∀ t ∈ item.getLast?, ∃ n, (Layout.ofText code).offset? t = some n ∧
    n + t.value.length = stop
  inside : ∀ t ∈ item, ∃ n, (Layout.ofText code).offset? t = some n ∧ first ≤ n ∧
    n + t.value.length ≤ stop

section

variable {code : Text} {start stop : Nat}

theorem Inked.inside (inked : Inked code start stop) : stop ≤ code.length := by
  obtain ⟨c, here, -⟩ := inked.ends
  have := (List.getElem?_eq_some_iff.1 here).1
  omega

theorem Token.inked {t : Token} {rest : Text} (lex : Lexeme t.kind t.value rest)
    (slice : code.slice start (start + t.value.length) = t.value) :
    Inked code start (start + t.value.length) := by
  have more : 0 < t.value.length := List.length_pos_iff.2 lex.ne_nil
  obtain ⟨c, u, value, visible⟩ := lex.head
  refine ⟨by omega, ⟨c, ?_, visible⟩, ?_⟩
  · have here := getElem?_of_slice_eq slice more
    rw [value] at here
    exact here
  · obtain ⟨d, last⟩ : ∃ d, t.value.getLast? = some d :=
      ⟨_, List.getLast?_eq_some_getLast lex.ne_nil⟩
    have here := getElem?_of_slice_eq (i := t.value.length - 1) slice (by omega)
    rw [← List.getLast?_eq_getElem?, last, ← Nat.add_sub_assoc more] at here
    have ink := lex.last last
    rw [isInk, Bool.and_eq_true, Bool.not_eq_true'] at ink
    exact ⟨d, here, ink.1⟩

theorem Sited.exists_stands {item : Item} {ts : List Token} (sited : Sited code start (item ++ ts))
    (more : item ≠ []) (lexed : ∀ t ∈ item, ∃ rest, Lexeme t.kind t.value rest) :
    ∃ first stop, start ≤ first ∧ Item.Stands code item first stop ∧ Sited code stop ts := by
  induction item generalizing start with
  | nil => exact absurd rfl more
  | cons t item ih =>
    obtain ⟨n, found, after, slice, sited⟩ := sited
    rw [List.forall_mem_cons] at lexed
    obtain ⟨⟨rest, lex⟩, lexed⟩ := lexed
    have inked := Token.inked lex slice
    cases item with
    | nil =>
      refine ⟨n, _, after, ⟨inked, ?_, ?_, ?_⟩, sited⟩
      · rintro _ ⟨⟩
        exact found
      · rintro _ ⟨⟩
        exact ⟨n, found, rfl⟩
      · intro t' mem
        rw [List.mem_singleton.1 mem]
        exact ⟨n, found, Nat.le_refl _, Nat.le_refl _⟩
    | cons t' item =>
      obtain ⟨first, stop, behind, stands, sited⟩ := ih sited (List.cons_ne_nil _ _) lexed
      have later := stands.less
      have less := inked.less
      refine ⟨n, stop, after, ⟨⟨by omega, inked.begins, stands.ends⟩, ?_, ?_, ?_⟩, sited⟩
      · rintro _ ⟨⟩
        exact found
      · rw [List.getLast?_cons_cons]
        exact stands.final
      · intro t'' mem
        rcases List.mem_cons.1 mem with rfl | mem
        · exact ⟨n, found, Nat.le_refl _, by omega⟩
        · obtain ⟨m, found, above, below⟩ := stands.inside t'' mem
          exact ⟨m, found, by omega, below⟩

end

/-- Whether every token of a text is found where it is written, behind the token before it. -/
def Text.IsSited (s : Text) : Prop :=
  ∃ ts ∈ (tokenize s.unifyBreaks).toOption, Sited s.unifyBreaks 0 ts

instance (s : Text) : Decidable s.IsSited :=
  inferInstanceAs (Decidable (∃ ts ∈ (tokenize s.unifyBreaks).toOption, Sited s.unifyBreaks 0 ts))

theorem Item.ne_nil_of_mem_group {ts : List Token} {item : Item} (mem : item ∈ group ts) :
    item ≠ [] := by
  obtain ⟨items, rest, -, closed, grouped⟩ := group_spec ts
  rw [grouped, List.mem_append] at mem
  rcases mem with mem | mem
  · exact (closed item mem).ne_nil
  · split at mem
    · cases mem
    · rename_i more
      rw [List.mem_singleton.1 mem]
      simpa using more

/-! ## What lies between items -/

namespace CompilationUnit

variable {code : Text} {previousEnd taken first stop : Nat} {last : Option Span}

/-- What is taken behind an item that ends at `previousEnd`: blanks, behind which the line may
end. Nothing is taken before the first item. -/
structure Takes (code : Text) (previousEnd taken : Nat) : Prop where
  le : previousEnd ≤ taken
  inside : taken ≤ code.length
  blanks : ∀ place, previousEnd ≤ place → place < taken →
    ∃ c, code[place]? = some c ∧ (c.isSpaceOrTab = true ∨ place + 1 = taken ∧ c = ofChar '\n')
  before : taken = 0 ∨ 0 < previousEnd ∧ ∃ c, code[previousEnd - 1]? = some c ∧ c.isBlank = false

theorem takes_nothing (code : Text) : Takes code 0 0 where
  le := Nat.le_refl _
  inside := Nat.zero_le _
  blanks := by
    intro place _ _
    omega
  before := .inl rfl

theorem takes_self (inked : Inked code first stop) : Takes code stop stop where
  le := Nat.le_refl _
  inside := inked.inside
  blanks := by
    intro place _ _
    omega
  before := .inr ⟨by have := inked.less; omega, inked.ends⟩

theorem Takes.isBlank (takes : Takes code previousEnd taken) {place : Nat}
    (after : previousEnd ≤ place) (before : place < taken) :
    ∃ c, code[place]? = some c ∧ c.isBlank = true := by
  obtain ⟨c, here, blank | ⟨-, rfl⟩⟩ := takes.blanks place after before
  · exact ⟨c, here, isBlank_of_isSpaceOrTab blank⟩
  · exact ⟨_, here, by decide⟩

theorem Takes.le_first (takes : Takes code previousEnd taken) (inked : Inked code first stop)
    (after : previousEnd ≤ first) : taken ≤ first := by
  by_contra short
  obtain ⟨c, here, visible⟩ := inked.begins
  obtain ⟨d, there, blank⟩ := takes.isBlank after (by omega)
  rw [here, Option.some.injEq] at there
  rw [← there, visible] at blank
  cases blank

theorem Takes.le_lineStart (takes : Takes code previousEnd taken)
    (fresh : previousEnd ≤ code.lineStart first) : taken ≤ code.lineStart first := by
  rcases takes.before with nothing | ⟨more, c, ink, visible⟩
  · omega
  by_contra short
  have isBreak := break_before_lineStart (s := code) (n := first) (by omega)
  -- The line break before the line is no ink, and more than it would have been taken.
  rcases Nat.lt_or_ge (code.lineStart first - 1) previousEnd with inside | behind
  · have same : code.lineStart first = previousEnd := by omega
    rw [same, ink, Option.some.injEq] at isBreak
    rw [isBreak] at visible
    exact absurd visible (by decide)
  · obtain ⟨d, there, blank | ⟨final, -⟩⟩ := takes.blanks _ behind (by omega)
    · rw [isBreak, Option.some.injEq] at there
      rw [← there] at blank
      exact absurd blank (by decide)
    · omega

/-- Where the text of a type begins: at its line, or behind what the item before it takes. -/
theorem Takes.typeStart {start : Nat} (takes : Takes code previousEnd taken)
    (inked : Inked code first stop) (after : previousEnd ≤ first)
    (ok : typeStart code first previousEnd = .ok start) : taken ≤ start ∧ start ≤ first := by
  have before := takes.le_first inked after
  have less := inked.less
  have inside := inked.inside
  simp only [CompilationUnit.typeStart] at ok
  split at ok
  · rename_i fresh
    obtain rfl := Except.ok.inj ok
    exact ⟨takes.le_lineStart fresh, code.lineStart_le first⟩
  · rename_i sameLine
    split at ok
    · cases ok
    obtain rfl := Except.ok.inj ok
    have length : (code.slice previousEnd first).length = first - previousEnd := by
      rw [slice, List.length_drop, List.length_take]
      omega
    have bound := blanksLength_le (code.slice previousEnd first)
    refine ⟨?_, by omega⟩
    have enough : taken - previousEnd ≤ blanksLength (code.slice previousEnd first) := by
      refine le_blanksLength (by omega) fun i within c here => ?_
      rw [getElem?_slice, if_pos (by omega)] at here
      obtain ⟨d, there, blank | ⟨-, rfl⟩⟩ := takes.blanks (previousEnd + i) (by omega) (by omega)
      · rw [there, Option.mem_some_iff] at here
        exact here ▸ blank
      · exact absurd there (noBreak_of_lineStart_le (n := first) (by omega) (by omega))
    have := takes.le
    omega

/-- What is cut out for a directive: the blanks before it on its line, unless another cut adjoins,
or nothing before it; and the blanks behind it, with the end of the line if it owns the line. -/
theorem directiveSpan_eq_ok {cut : Span} (ok : directiveSpan code last first stop = .ok cut) :
    (cut.start = first ∨ cut.start = code.lineStart first ∧
      isBlank (code.slice (code.lineStart first) first) = true) ∧
    (cut.stop = stop + blanksLength (code.drop stop) ∨
      cut.stop = stop + blanksLength (code.drop stop) + 1 ∧
        code[stop + blanksLength (code.drop stop)]? = some (ofChar '\n')) := by
  generalize adjoins : (last.map fun cut => cut.stop == first).getD false = joins at *
  simp only [directiveSpan, adjoins] at ok
  split at ok
  · rename_i owns
    have starts : (if joins = true then first else code.lineStart first) = first ∨
        (if joins = true then first else code.lineStart first) = code.lineStart first ∧
          isBlank (code.slice (code.lineStart first) first) = true := by
      rcases Bool.or_eq_true_iff.1 owns with blank | follows
      · cases joins with
        | true => exact .inl rfl
        | false => exact .inr ⟨rfl, blank⟩
      · -- A directive that follows a cut on its line adjoins it.
        cases last with
        | none => cases follows
        | some before =>
          simp only [Option.map_some, Option.getD_some, Bool.and_eq_true] at follows adjoins
          rw [follows.2] at adjoins
          exact .inl (by rw [← adjoins, if_pos rfl])
    split at ok
    · split at ok
      · obtain rfl := Except.ok.inj ok
        exact ⟨starts, .inl rfl⟩
      · cases ok
    · rename_i c rest behind
      obtain rfl := Except.ok.inj ok
      refine ⟨starts, ?_⟩
      by_cases isBreak : c = ofChar '\n'
      · refine .inr ⟨if_pos isBreak, ?_⟩
        have here := congrArg List.head? behind
        rwa [List.head?_drop, isBreak] at here
      · exact .inl (if_neg isBreak)
  · obtain rfl := Except.ok.inj ok
    exact ⟨.inl rfl, .inl rfl⟩

/-- A cut takes blanks behind its directive. -/
theorem takes_of_directiveSpan {cut : Span} (inked : Inked code first stop)
    (ok : directiveSpan code last first stop = .ok cut) : Takes code stop cut.stop := by
  have inside := inked.inside
  have less := inked.less
  have bound := blanksLength_le (code.drop stop)
  rw [List.length_drop] at bound
  rcases (directiveSpan_eq_ok ok).2 with stops | ⟨stops, isBreak⟩
  · refine ⟨by omega, by omega, fun place after before => ?_, .inr ⟨by omega, inked.ends⟩⟩
    obtain ⟨c, here, blank⟩ := isSpaceOrTab_behind after (stops ▸ before)
    exact ⟨c, here, .inl blank⟩
  · have within := (List.getElem?_eq_some_iff.1 isBreak).1
    refine ⟨by omega, by omega, fun place after before => ?_, .inr ⟨by omega, inked.ends⟩⟩
    rcases Nat.lt_or_ge place (stop + blanksLength (code.drop stop)) with among | final
    · obtain ⟨c, here, blank⟩ := isSpaceOrTab_behind after among
      exact ⟨c, here, .inl blank⟩
    · obtain rfl : place = stop + blanksLength (code.drop stop) := by omega
      exact ⟨_, isBreak, .inr ⟨by omega, rfl⟩⟩

theorem Takes.directiveSpan {cut : Span} (takes : Takes code previousEnd taken)
    (inked : Inked code first stop) (after : previousEnd ≤ first)
    (ok : directiveSpan code last first stop = .ok cut) :
    taken ≤ cut.start ∧ cut.start ≤ first ∧ Takes code stop cut.stop := by
  have before := takes.le_first inked after
  have begins : taken ≤ cut.start ∧ cut.start ≤ first := by
    rcases (directiveSpan_eq_ok ok).1 with same | ⟨line, blank⟩
    · omega
    have fresh : previousEnd ≤ code.lineStart first := by
      -- The item before would end on the line, in ink.
      by_contra sameLine
      rcases takes.before with nothing | ⟨more, c, ink, visible⟩
      · have := takes.le
        omega
      · have := isBlank_slice blank (previousEnd - 1) (by omega) (by omega) c ink
        rw [visible] at this
        cases this
    rw [line]
    exact ⟨takes.le_lineStart fresh, code.lineStart_le first⟩
  exact ⟨begins.1, begins.2, takes_of_directiveSpan inked ok⟩

end CompilationUnit

end JavaUnits
