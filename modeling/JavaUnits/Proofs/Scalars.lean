import JavaUnits.Proofs.EntryPoint
import JavaUnits.Proofs.Footprint
import JavaUnits.Proofs.Refusals

/-!
Texts without surrogates, which alone have an encoding. A split or merge makes no others of them,
and says no others when it fails, unless an escape denotes a surrogate: a literal in an import may
bring it into a file, and the line that a message shows into the message.
-/

namespace JavaUnits

open CodePoint Scan Text Token CompilationUnit

namespace Text

def IsScalar (s : Text) : Prop :=
  ∀ c ∈ s, c.isSurrogate = false

instance (s : Text) : Decidable s.IsScalar :=
  inferInstanceAs (Decidable (∀ c ∈ s, _))

variable {s t : Text}

@[simp] theorem isScalar_nil : IsScalar [] := by simp [IsScalar]

@[simp] theorem isScalar_append : (s ++ t).IsScalar ↔ s.IsScalar ∧ t.IsScalar :=
  List.forall_mem_append

@[simp] theorem isScalar_cons {c : CodePoint} :
    IsScalar (c :: s) ↔ c.isSurrogate = false ∧ s.IsScalar :=
  List.forall_mem_cons

theorem IsScalar.subset (scalar : t.IsScalar) (inside : ∀ c ∈ s, c ∈ t) : s.IsScalar :=
  fun c mem => scalar c (inside c mem)

@[simp] theorem isSurrogate_ofChar (c : Char) : (ofChar c).isSurrogate = false := by
  have valid : c.toNat.isValidChar := c.valid
  simp only [Nat.isValidChar] at valid
  rw [Bool.eq_false_iff, isSurrogate, ofChar, ne_eq, Bool.and_eq_true, decide_eq_true_eq,
    decide_eq_true_eq]
  dsimp only
  omega

theorem isScalar_map_ofChar (cs : List Char) : IsScalar (cs.map ofChar) := by
  intro c mem
  obtain ⟨d, -, rfl⟩ := List.mem_map.1 mem
  exact isSurrogate_ofChar d

@[simp] theorem isScalar_ofString (s : String) : (ofString s).IsScalar :=
  isScalar_map_ofChar _

@[simp] theorem isScalar_ofNat (n : Nat) : (ofNat n).IsScalar :=
  isScalar_ofString _

theorem isScalar_flatMap {α : Type} {f : α → Text} {as : List α}
    (each : ∀ a ∈ as, (f a).IsScalar) : IsScalar (as.flatMap f) := by
  intro c mem
  obtain ⟨a, inside, mem⟩ := List.mem_flatMap.1 mem
  exact each a inside c mem

theorem isScalar_join {separator : Text} {parts : List Text} (between : separator.IsScalar)
    (each : ∀ part ∈ parts, part.IsScalar) : (join separator parts).IsScalar := by
  induction parts with
  | nil => exact isScalar_nil
  | cons part parts ih =>
    rw [List.forall_mem_cons] at each
    cases parts with
    | nil => simpa [join] using each.1
    | cons next parts =>
      have later := ih each.2
      simp only [join, List.intersperse_cons_cons, List.flatten_cons, isScalar_append] at later ⊢
      exact ⟨each.1, between, later⟩

theorem mem_mergeBreaks {c : CodePoint} (mem : c ∈ s.mergeBreaks) : c ∈ s := by
  fun_induction mergeBreaks s with
  | case1 => exact mem
  | case2 => exact mem
  | case3 c' d s both ih =>
    rcases List.mem_cons.1 mem with rfl | mem
    · simp
    · simp [ih mem]
  | case4 c' d s other ih =>
    rcases List.mem_cons.1 mem with rfl | mem
    · simp
    · exact List.mem_cons_of_mem _ (ih mem)

theorem IsScalar.mergeBreaks (scalar : s.IsScalar) : s.mergeBreaks.IsScalar :=
  scalar.subset fun _ => mem_mergeBreaks

theorem IsScalar.unifyBreaks (scalar : s.IsScalar) : s.unifyBreaks.IsScalar := by
  intro c mem
  obtain ⟨d, inside, rfl⟩ := List.mem_map.1 mem
  split
  · exact isSurrogate_ofChar _
  · exact scalar.mergeBreaks d inside

end Text

namespace CodePoint

variable {c : CodePoint}

theorem isSurrogate_of_within {ranges : List (Nat × Nat)} (inside : c.within ranges = true)
    (apart : rangesApart ranges [(0xD800, 0xDFFF)] = true) : c.isSurrogate = false := by
  have outside := not_within_of_rangesApart apart inside
  rw [Bool.eq_false_iff, isSurrogate, ne_eq, Bool.and_eq_true, decide_eq_true_eq,
    decide_eq_true_eq]
  intro surrogate
  rw [within, if_neg (by omega), if_pos surrogate.2] at outside
  cases outside

theorem isSurrogate_of_continuesName (continues : c.continuesName = true) :
    c.isSurrogate = false := by
  rw [continuesName, Bool.or_eq_true] at continues
  rcases continues with starts | extender
  · exact isSurrogate_of_within starts (by decide +kernel)
  · exact isSurrogate_of_within extender (by decide +kernel)

/-- Whether the ranges of a table ascend. -/
def rangesAscend : List (Nat × Nat) → Bool
  | p :: q :: ranges => p.1 ≤ p.2 && p.2 < q.1 && rangesAscend (q :: ranges)
  | [p] => p.1 ≤ p.2
  | [] => true

theorem rangesAscend_lt {p : Nat × Nat} {ranges : List (Nat × Nat)}
    (ascend : rangesAscend (p :: ranges) = true) {q : Nat × Nat} (mem : q ∈ ranges) :
    p.1 ≤ p.2 ∧ p.2 < q.1 := by
  induction ranges generalizing p with
  | nil => cases mem
  | cons next ranges ih =>
    simp only [rangesAscend, Bool.and_eq_true, decide_eq_true_eq] at ascend
    refine ⟨ascend.1.1, ?_⟩
    rcases List.mem_cons.1 mem with rfl | mem
    · exact ascend.1.2
    · have := ih ascend.2 mem
      omega

theorem within_of_mem {ranges : List (Nat × Nat)} (ascend : rangesAscend ranges = true)
    {range : Nat × Nat} (mem : range ∈ ranges) (low : range.1 ≤ c.val) (high : c.val ≤ range.2) :
    c.within ranges = true := by
  induction ranges with
  | nil => cases mem
  | cons first ranges ih =>
    rw [within]
    rcases List.mem_cons.1 mem with rfl | mem
    · rw [if_neg (by omega), if_pos high]
    · have before := rangesAscend_lt ascend mem
      rw [if_neg (by omega), if_neg (by omega)]
      refine ih ?_ mem
      cases ranges with
      | nil => rfl
      | cons next ranges =>
        simp only [rangesAscend, Bool.and_eq_true] at ascend
        exact ascend.2

theorem isSurrogate_of_isPrintable (printable : c.isPrintable = true) : c.isSurrogate = false := by
  rw [Bool.eq_false_iff]
  intro surrogate
  rw [isSurrogate, Bool.and_eq_true, decide_eq_true_eq, decide_eq_true_eq] at surrogate
  have inside : c.within unprintables = true :=
    within_of_mem (by decide +kernel)
      (show (0xD7FC, 0xF8FF) ∈ unprintables by decide +kernel) (by simp only; omega)
      (by simp only; omega)
  rw [isPrintable, inside] at printable
  cases printable

end CodePoint

namespace Text

theorem isScalar_escape {quote c : CodePoint} (plain : quote.isSurrogate = false) :
    (Quoted.escape quote c).IsScalar := by
  have digits (width n : Nat) : (Quoted.hexDigits width n).IsScalar := isScalar_map_ofChar _
  rw [Quoted.escape]
  split
  · rename_i isMark
    have : c.isSurrogate = false := by
      rcases isMark with rfl | rfl
      · exact plain
      · exact isSurrogate_ofChar _
    simp [this]
  split
  · simp
  split
  · simp
  split
  · simp
  split
  · rename_i printable
    simp [isSurrogate_of_isPrintable printable]
  split
  · simp [digits]
  split
  · simp [digits]
  · simp [digits]

theorem isScalar_quoted (s : Text) : s.quoted.IsScalar := by
  have plain : (Quoted.quoteFor s).isSurrogate = false := by
    rw [Quoted.quoteFor]
    split <;> exact isSurrogate_ofChar _
  simp only [quoted, isScalar_append, isScalar_cons, plain, isScalar_nil, and_self, and_true,
    true_and]
  exact isScalar_flatMap fun c _ => isScalar_escape plain

end Text

/-! ## Tokens and complaints -/

namespace Token

variable {kind : Kind} {lexeme s : Text} {c d : CodePoint}

def isLiteral (t : Token) : Bool :=
  t.kind = .string || t.kind.isNumber

theorem Lexeme.isScalar (lex : Lexeme kind lexeme s) (noString : kind ≠ .string)
    (noNumber : kind.isNumber = false) : lexeme.IsScalar := by
  by_cases word : kind.isWord = true
  · exact fun d mem => isSurrogate_of_continuesName ((lex.name word).2.1.continues d mem)
  obtain ⟨c, u, rfl, -, read⟩ := lex
  rw [show c :: u = (c :: (u ++ s)).take (u.length + 1) by simp]
  generalize u.length + 1 = n at read ⊢
  cases reading read with
  | operator mem =>
    have all : ∀ operator ∈ operators, IsScalar operator := by decide
    exact all _ mem
  | atSign first => simp [first]
  | number number => simp [number] at noNumber
  | separator separator =>
    have all : ∀ d ∈ separators, d.isSurrogate = false := by decide
    simp [all c (List.contains_iff_mem.1 separator)]
  | literal => exact absurd rfl noString
  | word => exact absurd (kindOfWord_isWord _) word

/-! What a number lacks stands behind a part of it. -/

theorem digitsLength_eq_error {isDigit : CodePoint → Bool} {e : NumberFailure}
    (failed : digitsLength isDigit s = .error e) : e = .cutOff := by
  rw [digitsLength] at failed
  split at failed
  · exact (Except.error.inj failed).symm
  · cases failed

theorem signedLength_eq_error {e : NumberFailure} (failed : signedLength s = .error e) :
    e = .cutOff := by
  rcases bind_eq_error.1 failed with failed | ⟨n, -, never⟩
  · exact digitsLength_eq_error failed
  · cases never

theorem extend_eq_error {base : Nat} {marks : Text} {more : Text → Except NumberFailure Nat}
    {e : NumberFailure} (cutOff : ∀ t e, more t = .error e → e = .cutOff)
    (failed : extend s base marks more = .error e) : e = .cutOff := by
  rw [extend] at failed
  split at failed
  · rcases bind_eq_error.1 failed with failed | ⟨n, -, never⟩
    · exact cutOff _ _ failed
    · cases never
  · cases failed

theorem decimalLength_eq_error {e : NumberFailure} (failed : decimalLength s = .error e) :
    e = .cutOff := by
  have digits (t : Text) (e : NumberFailure) (failed : plainDigitsLength t = .error e) :
      e = .cutOff := digitsLength_eq_error failed
  rcases bind_eq_error.1 failed with failed | ⟨whole, -, failed⟩
  · exact digits _ _ failed
  split at failed
  · rcases bind_eq_error.1 failed with failed | ⟨fraction, -, failed⟩
    · exact extend_eq_error digits failed
    rcases bind_eq_error.1 failed with failed | ⟨exponent, -, failed⟩
    · exact extend_eq_error (fun _ _ => signedLength_eq_error) failed
    rcases bind_eq_error.1 failed with failed | ⟨suffix, -, never⟩
    · exact extend_eq_error (fun _ _ never => by cases never) failed
    · cases never
  · cases failed

theorem hexLength_eq_error {e : NumberFailure} (failed : hexLength s = .error e) :
    e = .cutOff ∨ ∃ n, e = .missingExponent (s.drop n) := by
  rcases bind_eq_error.1 failed with failed | ⟨whole, -, failed⟩
  · exact .inl (digitsLength_eq_error failed)
  dsimp only at failed
  split at failed
  · rcases bind_eq_error.1 failed with failed | ⟨fraction, -, failed⟩
    · exact .inl (extend_eq_error (fun _ _ => digitsLength_eq_error) failed)
    split at failed
    · rcases bind_eq_error.1 failed with failed | ⟨exponent, -, failed⟩
      · exact .inl (extend_eq_error (fun _ _ => signedLength_eq_error) failed)
      rcases bind_eq_error.1 failed with failed | ⟨suffix, -, never⟩
      · exact .inl (extend_eq_error (fun _ _ never => by cases never) failed)
      · cases never
    · exact .inr ⟨fraction, (Except.error.inj failed).symm⟩
  · cases failed

theorem numberLength_eq_error {e : NumberFailure} (failed : numberLength s = .error e) :
    e = .cutOff ∨ ∃ n, e = .missingExponent (s.drop n) := by
  rw [numberLength] at failed
  split at failed
  · dsimp only at failed
    split at failed
    · exact .inl (Except.error.inj failed).symm
    split at failed
    · exact hexLength_eq_error failed
    split at failed
    · rcases bind_eq_error.1 failed with failed | ⟨n, -, never⟩
      · exact .inl (digitsLength_eq_error failed)
      · cases never
    split at failed
    · rcases bind_eq_error.1 failed with failed | ⟨n, -, never⟩
      · exact .inl (digitsLength_eq_error failed)
      · cases never
    · exact .inl (decimalLength_eq_error failed)
  · exact .inl (decimalLength_eq_error failed)

theorem readNumber_eq_error {complaint : Complaint}
    (failed : readNumber s = .error (.at complaint d)) :
    d ∈ s := by
  rw [readNumber] at failed
  split at failed
  · cases failed
  · cases failed
  · cases failed
  · rename_i c rest missing
    rcases numberLength_eq_error missing with never | ⟨n, same⟩
    · cases never
    · obtain ⟨-, rfl⟩ := Stuck.at.inj (Except.error.inj failed)
      refine List.mem_of_mem_drop (i := n) ?_
      rw [← NumberFailure.missingExponent.inj same]
      exact List.mem_cons_self

theorem literalLength_eq_error {quote : CodePoint} {passed : Nat}
    (failed : literalLength quote passed s = .error (.illegalEscape d)) : d ∈ s := by
  fun_induction literalLength quote passed s with
  | case1 => cases failed
  | case2 => cases failed
  | case3 => cases failed
  | case4 => cases failed
  | case5 passed d' s _ _ ih => exact List.mem_cons_of_mem _ (List.mem_cons_of_mem _ (ih failed))
  | case6 =>
    obtain rfl := LiteralFailure.illegalEscape.inj (Except.error.inj failed)
    simp
  | case7 passed c d' s _ _ ih => exact List.mem_cons_of_mem _ (ih failed)

/-- What a complaint shows stands where no lexeme can be read. -/
theorem readLexeme_eq_error {complaint : Complaint}
    (failed : readLexeme c s = .error (.at complaint d)) : d ∈ c :: s := by
  rw [readLexeme] at failed
  split at failed
  · cases failed
  split at failed
  · cases failed
  split at failed
  · cases failed
  split at failed
  · exact readNumber_eq_error failed
  split at failed
  · cases failed
  split at failed
  · split at failed
    · cases failed
    · cases failed
    · rename_i e illegal
      obtain ⟨-, rfl⟩ := Stuck.at.inj (Except.error.inj failed)
      exact List.mem_cons_of_mem _ (literalLength_eq_error illegal)
  split at failed
  · exact readNumber_eq_error failed
  split at failed
  · cases failed
  split at failed
  · cases failed
  · obtain ⟨-, rfl⟩ := Stuck.at.inj (Except.error.inj failed)
    exact List.mem_cons_self

end Token

/-! ## Messages -/

theorem Scan.readLexeme_of_stuck {s : Text} {ps : List Piece} {reason : Stuck} {gap rest : Text}
    (ran : run s = (ps, .stuck reason gap rest)) :
    ∃ c t, rest = c :: t ∧ readLexeme c t = .error reason := by
  fun_induction run s generalizing ps with
  | case1 => cases ran
  | case2 =>
    rename_i c t split reason' failed
    obtain ⟨-, same⟩ := Prod.mk.inj ran
    obtain ⟨rfl, -, rfl⟩ := Ending.stuck.inj same
    exact ⟨c, t, rfl, failed⟩
  | case3 =>
    rename_i pieces ending ran' ih
    obtain ⟨-, rfl⟩ := Prod.mk.inj ran
    exact ih ran'

theorem Text.mem_of_mem_trimBy {α : Type} {p : α → Bool} {l : List α} {a : α}
    (mem : a ∈ trimBy p l) : a ∈ l := by
  obtain ⟨front, back, whole, -⟩ := trimBy_split p l
  rw [whole]
  exact List.mem_append_right _ (List.mem_append_left _ mem)

theorem Complaint.isScalar_text (complaint : Complaint) : complaint.text.IsScalar := by
  cases complaint <;> exact isScalar_ofString _

namespace LexError

theorem isScalar_excerpt {before after : Text} (front : before.IsScalar) (back : after.IsScalar) :
    (excerpt before after).IsScalar := by
  have beforeLine : IsScalar
      (before.reverse.takeWhile fun c : CodePoint => decide (c ≠ '\n')).reverse :=
    front.subset fun c mem => List.mem_reverse.1
      ((List.takeWhile_sublist _).subset (List.mem_reverse.1 mem))
  refine IsScalar.subset (isScalar_append.2 ⟨beforeLine, ?_⟩) fun c => mem_of_mem_trimBy
  split
  · exact back.subset fun c mem => (List.takeWhile_sublist _).subset mem
  · exact back.subset fun c mem => (List.dropLast_sublist _).subset mem

theorem isScalar_message_at {complaint : Complaint} {shown excerpt : Text} {line : Nat}
    (first : shown.IsScalar) (around : excerpt.IsScalar) :
    (LexError.at complaint shown line excerpt).message.IsScalar := by
  simp [message, complaint.isScalar_text, first, around]

theorem isScalar_message_ofStuck {pieces : List Piece} {reason : Stuck} {gap rest : Text}
    (scalar : (source pieces ++ (gap ++ rest)).IsScalar)
    (shown : ∀ complaint d, reason = .at complaint d → d ∈ rest) :
    (ofStuck pieces reason gap rest).message.IsScalar := by
  rw [isScalar_append, isScalar_append] at scalar
  obtain ⟨front, middle, back⟩ := scalar
  have around := isScalar_excerpt (isScalar_append.2 ⟨front, middle⟩) back
  cases reason with
  | unclosed complaint =>
    refine isScalar_message_at ?_ around
    exact IsScalar.subset (isScalar_append.2 ⟨middle, back⟩) fun c => List.mem_of_mem_take
  | «at» complaint d =>
    refine isScalar_message_at ?_ around
    simp [back d (shown complaint d rfl)]
  | numberCutOff => exact isScalar_ofString _
  | missingExponentAtEnd => exact isScalar_ofString _

end LexError

namespace Text

variable {s : Text}

/-- Whether no escape of the text denotes a surrogate. -/
def DenotesScalars (s : Text) : Prop :=
  ∀ c ∈ (Escape.denoted s).filterMap id, c.isSurrogate = false

instance (s : Text) : Decidable s.DenotesScalars :=
  inferInstanceAs (Decidable (∀ c ∈ _, _))

theorem IsScalar.decode {d : Text} (scalar : s.IsScalar) (denotes : s.DenotesScalars)
    (decoded : Escape.decode s = .ok d) : d.IsScalar := by
  intro c mem
  rcases Escape.mem_decode decoded mem with inside | denoted
  · exact scalar c inside
  · exact denotes c (List.mem_filterMap.2 ⟨some c, denoted, rfl⟩)

theorem Escape.mem_of_malformed {digits : Text} (failed : decode s = .error (.malformed digits))
    {c : CodePoint} (mem : c ∈ digits) : c ∈ s := by
  fun_induction decode s with
  | case1 => cases failed
  | case2 => cases failed
  | case3 s before after found more failure unread =>
    obtain ⟨marker, parts, -⟩ := firstMarker?_split found
    rw [List.reverse_nil, List.nil_append] at parts
    obtain rfl := Except.error.inj failed
    have : digits = after.take 4 := by
      rw [value] at unread
      split at unread
      · exact (Failure.malformed.inj (Except.error.inj unread)).symm
      · split at unread <;> cases unread
    rw [this] at mem
    rw [parts]
    exact List.mem_append_right _ (List.mem_of_mem_take mem)
  | case4 s before after found more c' read shorter failure goesOn ih =>
    obtain ⟨marker, parts, -⟩ := firstMarker?_split found
    rw [List.reverse_nil, List.nil_append] at parts
    obtain rfl := Except.error.inj failed
    rw [parts]
    exact List.mem_append_right _ (List.mem_of_mem_drop (ih goesOn))
  | case5 => cases failed

theorem IsScalar.message {e : LexError} (scalar : s.IsScalar) (denotes : s.DenotesScalars)
    (failed : tokenize s = .error e) : e.message.IsScalar := by
  rcases bind_eq_error.1 failed with undecoded | ⟨d, decoded, failed⟩
  · rw [decodeEscapes] at undecoded
    split at undecoded
    · cases undecoded
    · rename_i digits malformed
      obtain rfl := Except.error.inj undecoded
      refine LexError.isScalar_message_at ?_ (LexError.isScalar_excerpt isScalar_nil scalar)
      exact scalar.subset fun c => Escape.mem_of_malformed malformed
    · obtain rfl := Except.error.inj undecoded
      exact isScalar_ofString _
  · split at failed
    · cases failed
    · rename_i pieces reason gap rest ran
      obtain rfl := Except.error.inj failed
      have whole := source_run d
      rw [ran] at whole
      refine LexError.isScalar_message_ofStuck ?_ fun complaint c is => ?_
      · exact (scalar.decode denotes (decode_of_decodeEscapes decoded)).subset
          fun c mem => whole ▸ mem
      · obtain ⟨c', t, rfl, unread⟩ := readLexeme_of_stuck ran
        exact readLexeme_eq_error (is ▸ unread)

end Text

/-! ## Units -/

namespace CompilationUnit

variable {code : Text} {layout : Layout}

theorem header_of_locate {previousEnd : Nat} {h : Header} {located : Located}
    (ok : locate code layout previousEnd h = .ok located) : located.header = h := by
  obtain ⟨visibility, -, ok⟩ := bind_eq_ok.1 ok
  obtain ⟨anchor, -, ok⟩ := bind_eq_ok.1 ok
  obtain ⟨first, -, ok⟩ := bind_eq_ok.1 ok
  obtain ⟨start, -, ok⟩ := bind_eq_ok.1 ok
  rw [← Except.ok.inj ok]

theorem classify_eq_ok {previousEnd stop : Nat} {last : Option Span} {first : Token} {item : Item}
    {entry : Entry} (head : item.head? = some first)
    (ok : classify code layout previousEnd stop last first item = .ok entry) :
    entry.package? = item.package? ∧ entry.import? = item.import? ∧
      entry.type?.map Located.header = item.header? := by
  obtain ⟨rest, rfl⟩ := List.head?_eq_some_iff.1 head
  rw [Item.package?, Item.import?, Item.header?, Role.ofItem]
  rw [classify] at ok
  split at ok
  · rename_i isPackage
    obtain ⟨start, -, ok⟩ := bind_eq_ok.1 ok
    obtain ⟨cut, -, ok⟩ := bind_eq_ok.1 ok
    rw [if_pos isPackage, ← Except.ok.inj ok]
    exact ⟨rfl, rfl, rfl⟩
  rename_i noPackage
  rw [if_neg noPackage]
  split at ok
  · rename_i isImport
    obtain ⟨start, -, ok⟩ := bind_eq_ok.1 ok
    obtain ⟨cut, -, ok⟩ := bind_eq_ok.1 ok
    rw [if_pos isImport, ← Except.ok.inj ok]
    exact ⟨rfl, rfl, rfl⟩
  rename_i noImport
  rw [if_neg noImport]
  cases type : Header.ofItem? (first :: rest) with
  | some h =>
    rw [type] at ok
    obtain ⟨located, found, ok⟩ := bind_eq_ok.1 ok
    rw [← Except.ok.inj ok]
    exact ⟨rfl, rfl, congrArg some (header_of_locate found)⟩
  | none =>
    rw [type] at ok
    rw [← Except.ok.inj ok]
    exact ⟨rfl, rfl, rfl⟩

theorem entriesFrom_eq_ok {previousEnd : Nat} {last : Option Span} {items : List Item}
    {entries : List Entry} (ok : entriesFrom code layout previousEnd last items = .ok entries) :
    entries.filterMap Entry.package? = items.filterMap Item.package? ∧
      entries.filterMap Entry.import? = items.filterMap Item.import? ∧
      (entries.filterMap Entry.type?).map Located.header = items.filterMap Item.header? := by
  induction items generalizing previousEnd last entries with
  | nil =>
    obtain rfl := Except.ok.inj ok
    exact ⟨rfl, rfl, rfl⟩
  | cons item items ih =>
    rw [entriesFrom] at ok
    split at ok
    · rename_i first final head tail
      obtain ⟨place, -, ok⟩ := bind_eq_ok.1 ok
      obtain ⟨entry, classified, ok⟩ := bind_eq_ok.1 ok
      obtain ⟨entries, later, ok⟩ := bind_eq_ok.1 ok
      rw [← Except.ok.inj ok]
      obtain ⟨package, imported, header⟩ := classify_eq_ok head classified
      obtain ⟨packages, imports, headers⟩ := ih later
      simp only [List.filterMap_cons, package, packages, imported, imports]
      refine ⟨trivial, trivial, ?_⟩
      cases type : entry.type? with
      | none =>
        rw [type, Option.map_none] at header
        rw [← header, headers]
      | some t =>
        rw [type, Option.map_some] at header
        rw [← header, List.map_cons, headers]
    · rename_i incomplete
      obtain rfl : item = [] := by
        by_contra more
        obtain ⟨first, rest, rfl⟩ := List.exists_cons_of_ne_nil more
        exact incomplete first _ rfl (List.getLast?_cons ..)
      exact ih ok

/-- What a text is parsed as is told by its items, wherever these stand. -/
theorem outlines_of_parse {s : Text} {u : CompilationUnit} (parsed : parse s = .ok u) :
    u.Outlines s.items := by
  obtain ⟨ts, entries, read, listed, rfl⟩ := parse_eq_ok.1 parsed
  obtain ⟨packages, imports, headers⟩ := entriesFrom_eq_ok listed
  rw [items_of_tokenize read]
  refine ⟨congrArg List.getLast? packages, imports, ?_⟩
  rw [← headers, ofEntries, ← map_header_typesOf s.unifyBreaks (entries.filterMap Entry.cut?),
    List.map_map]
  rfl

end CompilationUnit

/-! ## What a text shows -/

theorem Item.ofItem?_of_header? {item : Item} {h : Header} (found : item.header? = some h) :
    Header.ofItem? item = some h := by
  rw [header?] at found
  cases item with
  | nil => cases found
  | cons first item =>
    rw [Role.ofItem] at found
    split at found
    · cases found
    split at found
    · cases found
    split at found
    · rename_i isType
      rw [isType]
      exact found
    · cases found

namespace Text

variable {s : Text}

/-- Whether no surrogate that an escape of the text denotes is shown: no escape denotes one, or the
text has tokens and no import a literal. -/
def HidesSurrogates (s : Text) : Prop :=
  s.DenotesScalars ∨ ∃ ts ∈ (tokenize s).toOption,
    ∀ item ∈ Item.group ts, item.import?.isSome = true → ∀ t ∈ item, t.isLiteral = false

instance (s : Text) : Decidable s.HidesSurrogates :=
  inferInstanceAs (Decidable (_ ∨ ∃ ts ∈ (tokenize s).toOption, _))

theorem lexeme_of_mem_tokens {d : Text} {t : Token} (mem : t ∈ tokens (run d).1) :
    (∃ rest, Lexeme t.kind t.value rest) ∧ ∀ c ∈ t.value, c ∈ d := by
  obtain ⟨front, p, back, pieces, rfl⟩ := exists_piece_of_mem_tokens mem
  have fits := fits_of_run (rfl : run d = (_, _))
  rw [pieces, fits_append] at fits
  refine ⟨⟨_, fits.2.2.1⟩, fun c mem => ?_⟩
  have whole := source_run d
  rw [pieces, source_append, source_cons] at whole
  rw [← whole]
  simp only [List.mem_append]
  exact .inl (.inr (.inr (.inl mem)))

theorem isScalar_value {ts : List Token} (read : tokenize s = .ok ts) {t : Token} (mem : t ∈ ts)
    (noLiteral : t.isLiteral = false) : t.value.IsScalar := by
  obtain ⟨d, -, rfl⟩ := tokenize_eq_ok read
  obtain ⟨⟨rest, lex⟩, -⟩ := lexeme_of_mem_tokens mem
  simp only [isLiteral, Bool.or_eq_false_iff, decide_eq_false_iff_not] at noLiteral
  exact lex.isScalar noLiteral.1 noLiteral.2

theorem IsScalar.value (scalar : s.IsScalar) (denotes : s.DenotesScalars) {ts : List Token}
    (read : tokenize s = .ok ts) {t : Token} (mem : t ∈ ts) : t.value.IsScalar := by
  obtain ⟨d, decoded, rfl⟩ := tokenize_eq_ok read
  exact (scalar.decode denotes decoded).subset (lexeme_of_mem_tokens mem).2

theorem HidesSurrogates.message (hides : s.HidesSurrogates) (scalar : s.IsScalar) {e : LexError}
    (failed : tokenize s = .error e) : e.message.IsScalar := by
  rcases hides with denotes | ⟨ts, read, -⟩
  · exact scalar.message denotes failed
  · rw [failed] at read
    cases read

/-- Whether every reply that shows the source can be encoded, and none of its tokens is missed. -/
@[mk_iff] structure IsAnswerable (s : Text) : Prop where
  tame : Escape.IsTame s.unifyBreaks
  scalar : s.IsScalar
  hides : s.unifyBreaks.HidesSurrogates
  hidesNames : s.mergeBreaks.HidesSurrogates

instance (s : Text) : Decidable s.IsAnswerable :=
  decidable_of_iff _ (isAnswerable_iff s).symm

variable {u : CompilationUnit}

theorem IsScalar.importText (scalar : s.IsScalar) (hides : s.unifyBreaks.HidesSurrogates)
    (parsed : parse s = .ok u) {i : Import} (mem : i ∈ u.imports) : i.text.IsScalar := by
  obtain ⟨ts, read⟩ := exists_tokenize_of_parse parsed
  have items := items_of_tokenize read
  rw [(outlines_of_parse parsed).imports, items] at mem
  obtain ⟨item, inside, imported⟩ := List.mem_filterMap.1 mem
  obtain ⟨-, rfl⟩ := Item.import?_eq_some imported
  intro c mem
  rcases Import.mem_text mem with word | ⟨t, isToken, mem⟩
  · exact isScalar_ofString _ c word
  · have listed := Item.mem_of_mem_group inside isToken
    rcases hides with denotes | ⟨ts', read', noLiteral⟩
    · exact scalar.unifyBreaks.value denotes read listed c mem
    · obtain rfl := Except.ok.inj (read.symm.trans (toOption_eq_some.1 read'))
      exact isScalar_value read listed
        (noLiteral item inside (by rw [imported]; rfl) t isToken) c mem

theorem isScalar_name (parsed : parse s = .ok u) {t : TypeDecl} (mem : t ∈ u.types) :
    t.name.IsScalar := by
  obtain ⟨ts, read⟩ := exists_tokenize_of_parse parsed
  have items := items_of_tokenize read
  have headers := (outlines_of_parse parsed).headers
  rw [items] at headers
  obtain ⟨h, found, same⟩ := List.mem_map.1 (headers ▸ List.mem_map_of_mem mem)
  obtain ⟨item, inside, header⟩ := List.mem_filterMap.1 found
  have name : t.name = h.name := (congrArg Header.name same).symm
  obtain ⟨before, keyword, token, rest, lead, isName, rfl⟩ :=
    Header.ofItem?_eq_some.1 (Item.ofItem?_of_header? header)
  have listed := Item.mem_of_mem_group inside (t := token) (by
    rw [(Header.lead?_eq_some lead).1]
    simp)
  rw [name]
  refine isScalar_value read listed ?_
  simp only [isIdentifier, decide_eq_true_eq] at isName
  rw [isLiteral, isName]
  rfl

end Text

/-! ## Splits and merges -/

namespace SplitFiles

variable {s : Text}

theorem isScalar_of_split (answerable : s.IsAnswerable) {parts : SplitFiles}
    (ran : split s = .ok parts) : (∀ file ∈ parts.files, file.1.IsScalar ∧ file.2.IsScalar) ∧
      ∀ name ∈ parts.typeNames, name.IsScalar := by
  obtain ⟨u, parsed, same⟩ := bind_eq_ok.1 ran
  obtain rfl := Except.ok.inj same
  constructor
  · intro file mem
    obtain ⟨t, inside, rfl⟩ := List.mem_map.1 (Files.mem_ofPairs mem)
    refine ⟨isScalar_append.2 ⟨isScalar_name parsed inside, isScalar_ofString _⟩, fun c mem => ?_⟩
    rcases mem_fileText mem with rfl | ⟨i, inside, mem⟩ | mem | mem
    · exact isSurrogate_ofChar _
    · exact answerable.scalar.importText answerable.hides parsed inside c mem
    · exact answerable.scalar.unifyBreaks c (code_of_parse parsed ▸ mem)
    · exact isScalar_ofString _ c mem
  · intro name mem
    obtain ⟨t, inside, rfl⟩ := List.mem_map.1 (List.mem_eraseDups.1 mem)
    exact isScalar_name parsed inside

end SplitFiles

/-- Whether everything that the refusal says can be encoded. -/
structure Refusal.IsScalar (r : Refusal) : Prop where
  message : r.message.IsScalar
  path : ∀ p ∈ r.path, p.IsScalar
  candidates : ∀ paths ∈ r.candidates, ∀ p ∈ paths, p.IsScalar

theorem UnitError.isScalar_refusal {lexical : LexError} (scalar : lexical.message.IsScalar) :
    ∃ r, (UnitError.lexical lexical).refusal? = some r ∧ r.IsScalar :=
  ⟨_, rfl, scalar, by simp, by simp⟩

theorem refusal_of_split {s : Text} (answerable : s.IsAnswerable) {e : UnitError}
    (failed : split s = .error e) : ∃ r, e.refusal? = some r ∧ r.IsScalar := by
  obtain ⟨lexical, unread, rfl⟩ := split_eq_error answerable.tame failed
  exact UnitError.isScalar_refusal (answerable.hides.message answerable.scalar.unifyBreaks unread)

section

variable {sources : Files} {asked : Option Text} {configured : Text}

theorem Merge.Extracted.exists_unit {defined : List Text} {es : List Extract}
    (extracted : Merge.Extracted sources defined es) {e : Extract} (mem : e ∈ es) :
    ∃ file ∈ sources, ∃ u, parse file.2 = .ok u ∧ e = .ofUnit file.1 defined u := by
  obtain ⟨file, inside, u, parsed, made⟩ := exists_left_of_mem extracted mem
  exact ⟨file, inside, u, parsed, made⟩

theorem Merge.extracted_of_mapM {defined : List Text} {es : List Extract}
    (ran : sources.mapM (fun (path, source) => Extract.ofSource defined path source) = .ok es) :
    Merge.Extracted sources defined es := by
  refine (mapM_eq_ok.1 ran).imp fun file e made => ?_
  obtain ⟨u, parsed, same⟩ := bind_eq_ok.1 made
  exact ⟨u, parsed, (Except.ok.inj same).symm⟩

theorem Merge.Extracted.isScalar_mainClassName {defined : List Text} {es : List Extract}
    (extracted : Merge.Extracted sources defined es) {e : Extract} (mem : e ∈ es) {name : Text}
    (is : e.mainClassName = some name) : name.IsScalar := by
  obtain ⟨file, source, u, parsed, rfl⟩ := extracted.exists_unit mem
  obtain ⟨t, first, rfl⟩ := Option.map_eq_some_iff.1 is
  exact isScalar_name parsed (List.mem_filter.1 (List.mem_of_head? first)).1

theorem Merge.isScalar_of_merge (scalar : ∀ file ∈ sources, file.2.IsScalar)
    (hides : ∀ file ∈ sources, file.2.unifyBreaks.HidesSurrogates) {m : Merged}
    (ran : merge sources asked configured = .ok m) :
    m.content.IsScalar ∧ m.mainClassName.IsScalar ∧ (∀ line ∈ m.imports, line.IsScalar) ∧
      (∀ name ∈ m.otherClassNames, name.IsScalar) ∧
        ∀ name ∈ m.demotedEntryPoints, name.IsScalar := by
  obtain ⟨p, defined, es, c, -, -, extracted, suits, rfl⟩ := merge_eq_ok ran
  have body (demoted : Bool) {e : Extract} (mem : e ∈ es) :
      IsScalar (ofLines (if demoted then e.demotedBody else e.body)) := by
    obtain ⟨file, inside, u, parsed, rfl⟩ := extracted.exists_unit mem
    intro c mem
    have inCode : c ∈ u.code := @mem_body u demoted c mem
    rw [code_of_parse parsed] at inCode
    exact (scalar file inside).unifyBreaks c inCode
  have imports : ∀ line ∈ (ofChoice es c).imports, line.IsScalar := by
    intro line mem
    rw [ofChoice, Text.sort, List.mem_mergeSort, List.mem_eraseDups] at mem
    obtain ⟨e, inside, mem⟩ := List.mem_flatMap.1 mem
    obtain ⟨i, kept, rfl⟩ := List.mem_map.1 mem
    obtain ⟨file, source, u, parsed, rfl⟩ := extracted.exists_unit inside
    exact (scalar file source).importText (hides file source) parsed (List.mem_filter.1 kept).1
  have names {e : Extract} (mem : e ∈ es) : ∀ name ∈ e.typeNames, name.IsScalar := by
    obtain ⟨file, source, u, parsed, rfl⟩ := extracted.exists_unit mem
    intro name mem
    obtain ⟨t, inside, rfl⟩ := List.mem_map.1 mem
    exact isScalar_name parsed inside
  have isChosen : c.chosen ∈ es := suits.all ▸ Choice.mem_all.2 (.inr rfl)
  have isOther {e : Extract} (mem : e ∈ c.others) : e ∈ es :=
    suits.all ▸ Choice.mem_all.2 (.inl mem)
  refine ⟨fun d mem => ?_, ?_, imports, fun name mem => ?_, fun name mem => ?_⟩
  · rcases mem_assemble mem with rfl | ⟨line, inside, mem⟩ | ⟨ls, inside, mem⟩ | mem
    · exact isSurrogate_ofChar _
    · exact imports line inside d mem
    · obtain ⟨e, kept, rfl⟩ := List.mem_map.1 inside
      exact body true (isOther (List.mem_filter.1 kept).1) d mem
    · exact body false isChosen d mem
  · obtain ⟨name, is⟩ := Option.isSome_iff_exists.1 suits.candidate
    simpa [ofChoice, is] using extracted.isScalar_mainClassName isChosen is
  · obtain ⟨e, kept, mem⟩ := List.mem_flatMap.1 mem
    exact names (isOther (List.mem_filter.1 kept).1) name mem
  · obtain ⟨e, inside, is⟩ := List.mem_filterMap.1 mem
    exact extracted.isScalar_mainClassName (isOther inside) is

/-- A merge of answerable sources that fails is refused. -/
theorem refusal_of_merge (paths : ∀ file ∈ sources, file.1.IsScalar)
    (answerable : ∀ file ∈ sources, file.2.IsAnswerable) {e : MergeError}
    (failed : merge sources asked configured = .error e) :
    ∃ r, e.refusal? = some r ∧ r.IsScalar := by
  rcases merge_eq_error (fun file mem => (answerable file mem).tame) failed with
    rfl | rfl | ⟨file, mem, lexical, rfl, unread⟩ | rfl | ⟨defined, es, extracted, rfl⟩
  · refine ⟨_, rfl, ?_, by simp, by simp⟩
    simp only [MergeError.message, isScalar_append, isScalar_ofString, isScalar_quoted, true_and]
    decide
  · exact ⟨_, rfl, isScalar_ofString _, by simp, by simp⟩
  · refine UnitError.isScalar_refusal ?_
    rcases unread with unread | unread
    · exact (answerable file mem).hidesNames.message (answerable file mem).scalar.mergeBreaks unread
    · exact (answerable file mem).hides.message (answerable file mem).scalar.unifyBreaks unread
  · exact ⟨_, rfl, isScalar_ofString _, by simp, by simp⟩
  · have candidates : ∀ candidate ∈ es.filterMap Extract.candidate?,
        candidate.1.IsScalar ∧ candidate.2.IsScalar := by
      intro candidate mem
      obtain ⟨e, inside, is⟩ := List.mem_filterMap.1 mem
      obtain ⟨name, main, rfl⟩ := Option.map_eq_some_iff.1 is
      refine ⟨(Merge.extracted_of_mapM extracted).isScalar_mainClassName inside main, ?_⟩
      obtain ⟨file, source, u, -, rfl⟩ := (Merge.extracted_of_mapM extracted).exists_unit inside
      exact paths file source
    refine ⟨_, rfl, ?_, by simp, ?_⟩
    · refine isScalar_append.2 ⟨isScalar_ofString _, isScalar_join (isScalar_ofString _) ?_⟩
      intro part mem
      obtain ⟨candidate, inside, rfl⟩ := List.mem_map.1 mem
      simp [candidates candidate inside]
    · intro cs is p mem
      obtain rfl := Option.some.inj is
      obtain ⟨candidate, inside, rfl⟩ := List.mem_map.1 mem
      exact (candidates candidate inside).2

end

end JavaUnits
