import JavaUnits.Proofs.Declaration
import JavaUnits.Proofs.Remains
import JavaUnits.Proofs.Reads

/-!
How import declarations of plain names are written. The text of an import has the tokens of its
declaration, with single blanks where words would run together.
-/

namespace JavaUnits

open CodePoint Token Scan Text

/-- Whether the tokens are names and words that a scan gives. -/
def Token.IsLexed (t : Token) : Prop :=
  t.kind.isWord = true → t.kind = kindOfWord t.value ∧ IsName t.value

theorem Token.IsLexed.isName {t : Token} (lexed : t.IsLexed) (is : t.isIdentifier = true) :
    IsName t.value :=
  (lexed (by rw [isIdentifier_iff.1 is]; rfl)).2

theorem Scan.Fits.isLexed {ps : List Piece} {s : Text} (fits : Fits ps s) :
    ∀ p ∈ ps, p.token.IsLexed := by
  induction ps with
  | nil => simp
  | cons p ps ih =>
    rw [List.forall_mem_cons]
    obtain ⟨-, lex, rest⟩ := fits
    exact ⟨fun word => ⟨(lex.name word).1, (lex.name word).2.1⟩, ih rest⟩

namespace Token

theorem lexeme_single {c : CodePoint} {kind : Kind} {s : Text} (visible : c.isBlank = false)
    (noSlash : c ≠ ofChar '/') (read : readLexeme c s = .ok (kind, 1)) : Lexeme kind [c] s :=
  ⟨c, [], rfl, (gapLength_eq_zero_iff read).2 ⟨visible, fun slash => noSlash slash.1⟩, read⟩

theorem lexeme_dot {s : Text} (noDigit : ∀ c, s.head? = some c → c.isDigit = false)
    (noDot : ∀ c, s.head? = some c → c ≠ ofChar '.') : Lexeme .separator [ofChar '.'] s := by
  apply lexeme_single (by decide) (by decide)
  have digit : (s.head?.map CodePoint.isDigit).getD false = false := by
    cases head : s.head? with
    | none => rfl
    | some c => simpa using noDigit c head
  have dots : Text.startsWith (ofChar '.' :: s) (Text.ofString "...") = false := by
    cases s with
    | nil => rfl
    | cons c s =>
      have other : (ofChar '.' == c) = false := by simpa using Ne.symm (noDot c rfl)
      show (ofChar '.' == ofChar '.' && (ofChar '.' == c && _)) = false
      rw [other, Bool.false_and, Bool.and_false]
  rw [readLexeme, if_neg (by simp [show ofChar '.' ≠ ofChar '/' by decide]), dots,
    if_neg (by simp), if_neg (by decide), if_neg (by simp [digit]), if_pos (by decide)]

theorem lexeme_star (s : Text) : Lexeme .operator [ofChar '*'] (ofChar ';' :: s) := by
  apply lexeme_single (by decide) (by decide)
  rw [readLexeme]
  rfl

/-- The token as a piece of a text. -/
def piece (gap : Text) (t : Token) : Piece :=
  ⟨gap, t.kind, t.value⟩

theorem source_piece (ts : List Token) : source (ts.map (piece [])) = ts.flatMap value := by
  induction ts with
  | nil => rfl
  | cons t ts ih =>
    rw [List.map_cons, source_cons, ih, List.flatMap_cons]
    rfl

theorem IsLexed.lexeme {t : Token} (lexed : t.IsLexed) (word : t.kind.isWord = true) {s : Text}
    (stop : continuesIn s = false) : Lexeme t.kind t.value s := by
  obtain ⟨kind, name⟩ := lexed word
  rw [kind]
  exact lexeme_name name stop

theorem fits_path {ts : List Token} (path : isPath ts = true) (lexed : ∀ t ∈ ts, t.IsLexed)
    {s : Text} (stop : continuesIn s = false) :
    Fits (ts.map (piece [])) s ∧ ∃ c u, ts.flatMap value = c :: u ∧ c.startsName = true := by
  fun_induction isPath ts with
  | case1 => simp at path
  | case2 t =>
    have kind : t.kind = .identifier := of_decide_eq_true path
    have word : t.kind.isWord = true := by rw [kind]; rfl
    have isLexed := lexed t (by simp)
    obtain ⟨c, u, value, starts⟩ := (isLexed word).2.head
    exact ⟨⟨.nil, isLexed.lexeme word stop, trivial⟩, c, u, by simp [value], starts⟩
  | case3 t dot ts ih =>
    simp only [Bool.and_eq_true] at path
    obtain ⟨⟨is, isDot⟩, path⟩ := path
    simp only [List.forall_mem_cons] at lexed
    obtain ⟨fits, c, u, later, starts⟩ := ih path lexed.2.2
    have kind : t.kind = .identifier := of_decide_eq_true is
    have word : t.kind.isWord = true := by rw [kind]; rfl
    obtain ⟨d, v, value, begins⟩ := (lexed.1 word).2.head
    obtain ⟨dotKind, dotValue⟩ := isSeparator_iff.1 isDot
    have dotValue : dot.value = [ofChar '.'] := dotValue
    refine ⟨⟨.nil, lexed.1.lexeme word ?_, .nil, ?_, fits⟩, d,
      v ++ dot.value ++ ts.flatMap Token.value, ?_,
      begins⟩
    · rw [List.map_cons, source_cons]
      simp only [piece, dotValue]
      show (ofChar '.').continuesName = false
      decide +kernel
    · simp only [piece, dotKind, dotValue, source_piece, later]
      apply lexeme_dot
      · rintro _ ⟨rfl⟩
        exact isDigit_of_startsName starts
      · rintro _ ⟨rfl⟩
        exact (startsName_apart starts).2.2.2.1
    · simp [value]

end Token

namespace Item

theorem fits_wildcard {wildcard : List Token} {mark : Token} (isMark : mark.isSemicolon = true)
    (isWildcard : wildcard = [] ∨ ∃ dot star, wildcard = [dot, star] ∧
      dot.isSeparator "." = true ∧ star.kind = .operator ∧ star.value = Text.ofString "*")
    (s : Text) : Fits ((wildcard ++ [mark]).map (piece [])) s ∧
      continuesIn ((wildcard ++ [mark]).flatMap Token.value ++ s) = false ∧
      Item.joinValues (wildcard ++ [mark]) = wildcard.flatMap Token.value ∧
      (wildcard ++ [mark]).flatMap Token.value = wildcard.flatMap Token.value ++ [ofChar ';'] := by
  obtain ⟨kind, value⟩ := isSeparator_iff.1 isMark
  have value : mark.value = [ofChar ';'] := value
  have last : Fits [mark.piece []] s := by
    refine ⟨.nil, ?_, trivial⟩
    simp only [piece, kind, value]
    exact lexeme_separator (by decide) (by decide) _
  rcases isWildcard with rfl | ⟨dot, star, rfl, isDot, starKind, starValue⟩
  · refine ⟨last, ?_, ?_, by simp [value]⟩
    · simp only [List.nil_append, List.flatMap_cons, value]
      show (ofChar ';').continuesName = false
      decide +kernel
    · simp [Item.joinValues, value, Text.ofString]
  · obtain ⟨dotKind, dotValue⟩ := isSeparator_iff.1 isDot
    have dotValue : dot.value = [ofChar '.'] := dotValue
    have starValue : star.value = [ofChar '*'] := starValue
    have behindStar : source ([mark].map (piece [])) ++ s = ofChar ';' :: s := by
      simp [source_cons, piece, value]
    have behindDot : source ([star, mark].map (piece [])) ++ s
        = ofChar '*' :: (source ([mark].map (piece [])) ++ s) := by
      simp [source_cons, piece, starValue]
    refine ⟨⟨.nil, ?_, .nil, ?_, last⟩, ?_, ?_, by simp [value]⟩
    · show Lexeme dot.kind dot.value (source ([star, mark].map (piece [])) ++ s)
      rw [dotKind, dotValue, behindDot]
      apply lexeme_dot
      · rintro _ ⟨rfl⟩
        decide +kernel
      · rintro _ ⟨rfl⟩
        decide
    · show Lexeme star.kind star.value (source ([mark].map (piece [])) ++ s)
      rw [starKind, starValue, behindStar]
      exact lexeme_star s
    · simp only [List.cons_append, List.flatMap_cons, dotValue]
      show (ofChar '.').continuesName = false
      decide +kernel
    · simp only [Item.joinValues, List.cons_append, List.nil_append]
      rw [List.filter_cons_of_pos (by rw [dotValue]; decide),
        List.filter_cons_of_pos (by rw [starValue]; decide),
        List.filter_cons_of_neg (by rw [value]; decide)]
      rfl

theorem joinValues_path {path : List Token} (isPath : isPath path = true)
    (lexed : ∀ t ∈ path, t.IsLexed) (ts : List Token) :
    Item.joinValues (path ++ ts) = path.flatMap Token.value ++ Item.joinValues ts := by
  have whole : path.filter (fun t => t.value != Text.ofString ";") = path := by
    rw [List.filter_eq_self]
    intro t mem
    rw [bne_iff_ne]
    rcases isPath_mem isPath t mem with is | is
    · obtain ⟨c, u, value, starts⟩ := ((lexed t mem).isName is).head
      rw [value]
      intro same
      obtain ⟨rfl, -⟩ := List.cons.inj same
      exact absurd starts (by decide +kernel)
    · rw [(isSeparator_iff.1 is).2]
      decide
  rw [Item.joinValues, List.filter_append, whole, List.flatMap_append]
  rfl

/-- The text of an import has the tokens of its declaration, and may stand before any text. -/
theorem IsImport.exists_pieces {item : Item} (isImport : item.IsImport)
    (lexed : ∀ t ∈ item, t.IsLexed) :
    ∃ ps, source ps = (Import.ofItem item).text ∧ leadingGap ps = [] ∧ (∀ s, Fits ps s) ∧
      ps.map Piece.token = item.map Token.bare := by
  obtain ⟨keyword, scope, path, wildcard, mark, rfl, isKeyword, isScope, isPath, isWildcard,
    isMark⟩ := isImport
  simp only [List.forall_mem_cons, List.forall_mem_append] at lexed
  obtain ⟨lexedKeyword, lexedScope, lexedPath, -⟩ := lexed
  obtain ⟨t, rest, rfl⟩ : ∃ t rest, path = t :: rest := by
    apply List.exists_cons_of_ne_nil
    rintro rfl
    simp [Token.isPath] at isPath
  have isName : t.isModifier = false := (isPlainName_of_isPath isPath t (by simp)).isModifier
  have isKeyword := isKeyword_iff.1 isKeyword
  have keywordWord := Kind.isWord_of_isKeyword isKeyword.1
  have space : IsGap [ofChar ' '] := .blank (by decide) .nil
  have alone (s : Text) : continuesIn ([ofChar ' '] ++ s) = false :=
    continuesName_of_isBlank (by decide)
  have tokens (ts : List Token) (gap : Text) :
      (ts.map (piece gap)).map Piece.token = ts.map Token.bare := by
    rw [List.map_map]
    rfl
  -- What stands behind the first blank, if the import is not static.
  have name (s : Text) : Fits (regap [ofChar ' '] ((t :: rest).map (piece []))
      ++ (wildcard ++ [mark]).map (piece [])) s := by
    obtain ⟨fits, stop, -⟩ := fits_wildcard isMark isWildcard s
    rw [fits_append, source_piece]
    exact ⟨((fits_path isPath lexedPath stop).1).regap space, fits⟩
  obtain ⟨-, -, values, written⟩ := fits_wildcard isMark isWildcard []
  have nameSource : source (regap [ofChar ' '] ((t :: rest).map (piece []))
      ++ (wildcard ++ [mark]).map (piece []))
        = [ofChar ' '] ++ ((t :: rest).flatMap Token.value ++ (wildcard.flatMap Token.value
          ++ [ofChar ';'])) := by
    rw [source_append, source_regap _ (by simp), inkText, source_piece, written]
    have same : regap [] ((t :: rest).map (piece [])) = (t :: rest).map (piece []) := rfl
    rw [same, source_piece, List.append_assoc]
  have nameTokens : (regap [ofChar ' '] ((t :: rest).map (piece []))
      ++ (wildcard ++ [mark]).map (piece [])).map Piece.token
        = ((t :: rest) ++ (wildcard ++ [mark])).map Token.bare := by
    rw [List.map_append, token_regap, tokens, tokens, ← List.map_append]
  have joined := joinValues_path isPath lexedPath (wildcard ++ [mark])
  rw [values, List.cons_append] at joined
  rcases isScope with rfl | ⟨scope, rfl, kind, value⟩
  · refine ⟨keyword.piece [] :: (regap [ofChar ' '] ((t :: rest).map (piece []))
      ++ (wildcard ++ [mark]).map (piece [])), ?_, rfl, fun s => ⟨.nil, ?_, name s⟩, ?_⟩
    · rw [source_cons, nameSource]
      simp only [Import.ofItem, List.drop_succ_cons, List.drop_zero, List.nil_append,
        List.cons_append, isName, Bool.false_and, Bool.false_eq_true, if_false, Import.text,
        piece, isKeyword.2]
      rw [joined]
      simp [Text.ofString]
    · rw [nameSource, List.append_assoc]
      exact lexedKeyword.lexeme keywordWord (alone _)
    · rw [List.map_cons, nameTokens]
      rfl
  · rw [List.forall_mem_singleton] at lexedScope
    refine ⟨keyword.piece [] :: scope.piece [ofChar ' '] :: (regap [ofChar ' ']
      ((t :: rest).map (piece [])) ++ (wildcard ++ [mark]).map (piece [])), ?_, rfl,
      fun s => ⟨.nil, ?_, space, ?_, name s⟩, ?_⟩
    · rw [source_cons, source_cons, nameSource]
      simp only [Import.ofItem, List.drop_succ_cons, List.drop_zero, List.singleton_append,
        isModifier, kind, value, decide_true, beq_self_eq_true, Bool.true_and, if_true,
        Import.text, piece, isKeyword.2]
      rw [List.cons_append, joined]
      simp [Text.ofString]
    · rw [source_cons, List.append_assoc]
      exact lexedKeyword.lexeme keywordWord (alone _)
    · rw [nameSource, List.append_assoc]
      exact lexedScope.lexeme (by rw [kind]; rfl) (alone _)
    · rw [List.map_cons, List.map_cons, nameTokens]
      rfl

end Item

end JavaUnits
