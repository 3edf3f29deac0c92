import JavaUnits.Proofs.Scalars

/-!
UTF-8 there and back. A text without surrogates is decoded from its encoding, whether a byte order
mark may stand in front or not, unless the text begins with one; and whatever is decoded has no
surrogates.
-/

namespace JavaUnits.Text.Utf8

open CodePoint

variable {s : Text} {c : CodePoint}

theorem encode_of_isScalar (scalar : s.IsScalar) : encode s = .ok (s.flatMap encodeCodePoint) := by
  have none : (s.dropWhile fun c => !c.isSurrogate) = [] :=
    List.dropWhile_eq_nil_iff.2 fun c mem => by simp [scalar c mem]
  rw [encode, none]

theorem toNat_continuation (n : Nat) : (continuation n).toNat = 0x80 + n % 64 := by
  rw [continuation, UInt8.toNat_ofNat']
  omega

theorem continue?_continuation {bits taken n : Nat} {low high : UInt8}
    {ranges : List (UInt8 × UInt8)} (above : low.toNat ≤ 0x80 + n % 64)
    (below : 0x80 + n % 64 ≤ high.toNat) (rest : Bytes) :
    continue? bits taken ((low, high) :: ranges) (continuation n :: rest)
      = continue? (bits * 64 + n % 64) (taken + 1) ranges rest := by
  rw [continue?, if_pos, toNat_continuation, Nat.add_sub_cancel_left]
  rw [UInt8.le_iff_toNat_le, UInt8.le_iff_toNat_le, toNat_continuation]
  exact ⟨above, below⟩

/-- The first byte of a code point's encoding tells what follows, and the rest leads to the code
point. -/
theorem encodeCodePoint_reads (scalar : c.isSurrogate = false) :
    ∃ b tail bits ranges, encodeCodePoint c = b :: tail ∧ lead? b = some (bits, ranges) ∧
      ∀ rest, continue? bits 1 ranges (tail ++ rest) = .ok (c.val, rest) := by
  have small := c.val_lt
  have toNat {n : Nat} (byte : n < 256) : (UInt8.ofNat n).toNat = n := by
    rw [UInt8.toNat_ofNat']
    omega
  rw [encodeCodePoint]
  split
  · rename_i one
    refine ⟨_, [], c.val, [], rfl, ?_, fun rest => rfl⟩
    simp only [lead?, toNat (by omega : c.val < 256), if_pos one]
  split
  · rename_i one two
    have first : (UInt8.ofNat (0xC0 + c.val / 64)).toNat = 0xC0 + c.val / 64 := toNat (by omega)
    refine ⟨_, _, c.val / 64, [(0x80, 0xBF)], rfl, ?_, fun rest => ?_⟩
    · simp only [lead?, first]
      rw [if_neg (by omega), if_neg (by omega), if_pos (by omega), Nat.add_sub_cancel_left]
    · rw [List.singleton_append, continue?_continuation (by change 128 ≤ _; omega)
        (by change _ ≤ 191; omega), continue?]
      congr 2
      omega
  split
  · rename_i one two three
    have first : (UInt8.ofNat (0xE0 + c.val / 4096)).toNat = 0xE0 + c.val / 4096 :=
      toNat (by omega)
    have other : c.val < 0xD800 ∨ 0xDFFF < c.val := by
      rw [isSurrogate, Bool.and_eq_false_iff, decide_eq_false_iff_not, decide_eq_false_iff_not]
        at scalar
      omega
    refine ⟨_, _, c.val / 4096, [if 0xE0 + c.val / 4096 = 0xE0 then (0xA0, 0xBF)
      else if 0xE0 + c.val / 4096 = 0xED then (0x80, 0x9F) else (0x80, 0xBF), (0x80, 0xBF)],
      rfl, ?_,
      fun rest => ?_⟩
    · simp only [lead?, first]
      rw [if_neg (by omega), if_neg (by omega), if_neg (by omega), if_pos (by omega),
        Nat.add_sub_cancel_left]
    · have second : ∀ taken ranges rest, continue? (c.val / 4096) taken
          ((if 0xE0 + c.val / 4096 = 0xE0 then (0xA0, 0xBF)
            else if 0xE0 + c.val / 4096 = 0xED then (0x80, 0x9F) else (0x80, 0xBF)) :: ranges)
          (continuation (c.val / 64) :: rest)
          = continue? (c.val / 4096 * 64 + c.val / 64 % 64) (taken + 1) ranges rest := by
        intro taken ranges rest
        split
        · exact continue?_continuation (by change 160 ≤ _; omega) (by change _ ≤ 191; omega) rest
        split
        · exact continue?_continuation (by change 128 ≤ _; omega) (by change _ ≤ 159; omega) rest
        · exact continue?_continuation (by change 128 ≤ _; omega) (by change _ ≤ 191; omega) rest
      rw [List.cons_append, List.singleton_append, second,
        continue?_continuation (by change 128 ≤ _; omega) (by change _ ≤ 191; omega), continue?]
      congr 2
      omega
  · rename_i one two three
    have first : (UInt8.ofNat (0xF0 + c.val / 262144)).toNat = 0xF0 + c.val / 262144 :=
      toNat (by omega)
    refine ⟨_, _, c.val / 262144, [if 0xF0 + c.val / 262144 = 0xF0 then (0x90, 0xBF)
      else if 0xF0 + c.val / 262144 = 0xF4 then (0x80, 0x8F) else (0x80, 0xBF), (0x80, 0xBF),
      (0x80, 0xBF)], rfl, ?_, fun rest => ?_⟩
    · simp only [lead?, first]
      rw [if_neg (by omega), if_neg (by omega), if_neg (by omega), if_neg (by omega),
        if_pos (by omega), Nat.add_sub_cancel_left]
    · have second : ∀ taken ranges rest, continue? (c.val / 262144) taken
          ((if 0xF0 + c.val / 262144 = 0xF0 then (0x90, 0xBF)
            else if 0xF0 + c.val / 262144 = 0xF4 then (0x80, 0x8F) else (0x80, 0xBF)) :: ranges)
          (continuation (c.val / 4096) :: rest)
          = continue? (c.val / 262144 * 64 + c.val / 4096 % 64) (taken + 1) ranges rest := by
        intro taken ranges rest
        split
        · exact continue?_continuation (by change 144 ≤ _; omega) (by change _ ≤ 191; omega) rest
        split
        · exact continue?_continuation (by change 128 ≤ _; omega) (by change _ ≤ 143; omega) rest
        · exact continue?_continuation (by change 128 ≤ _; omega) (by change _ ≤ 191; omega) rest
      rw [List.cons_append, List.cons_append, List.singleton_append, second,
        continue?_continuation (by change 128 ≤ _; omega) (by change _ ≤ 191; omega),
        continue?_continuation (by change 128 ≤ _; omega) (by change _ ≤ 191; omega), continue?]
      congr 2
      omega

theorem decodeFrom_encodeCodePoint (scalar : c.isSurrogate = false) (start : Nat) (done : Text)
    (rest : Bytes) : ∃ start', decodeFrom start done (encodeCodePoint c ++ rest)
      = decodeFrom start' (c :: done) rest := by
  obtain ⟨b, tail, bits, ranges, encoded, lead, reads⟩ := encodeCodePoint_reads scalar
  refine ⟨start + 1 + ranges.length, ?_⟩
  have made : CodePoint.ofNat? c.val = some c := by rw [CodePoint.ofNat?, dif_pos c.val_lt]
  rw [encoded, List.cons_append, decodeFrom, lead]
  simp only
  split
  · rename_i failed
    rw [reads] at failed
    cases failed
  · rename_i n rest' goesOn
    rw [reads] at goesOn
    obtain ⟨rfl, rfl⟩ := Prod.mk.inj (Except.ok.inj goesOn)
    simp only [made]

theorem decodeFrom_flatMap (scalar : s.IsScalar) (start : Nat) (done : Text) :
    decodeFrom start done (s.flatMap encodeCodePoint) = .ok (done.reverse ++ s) := by
  induction s generalizing start done with
  | nil => simp [decodeFrom]
  | cons c s ih =>
    rw [isScalar_cons] at scalar
    rw [List.flatMap_cons]
    obtain ⟨start', next⟩ := decodeFrom_encodeCodePoint scalar.1 start done
      (s.flatMap encodeCodePoint)
    rw [next, ih scalar.2]
    simp

theorem decode_flatMap (scalar : s.IsScalar) : decode (s.flatMap encodeCodePoint) = .ok s :=
  decodeFrom_flatMap scalar 0 []

/-- The byte order mark as a code point. -/
def mark : CodePoint :=
  ofChar '\uFEFF'

/-- Bytes that begin like a byte order mark, or that it begins like, begin with the mark. -/
theorem eq_mark {rest : Bytes} (scalar : c.isSurrogate = false)
    (alike : encodeCodePoint c ++ rest <+: byteOrderMark ∨
      byteOrderMark <+: encodeCodePoint c ++ rest) :
    c = mark := by
  have small := c.val_lt
  have byte {n : Nat} {b : UInt8} (small : n < 256) (same : UInt8.ofNat n = b) : n = b.toNat := by
    rw [← same, UInt8.toNat_ofNat']
    omega
  have next {n : Nat} {b : UInt8} (same : continuation n = b) : 0x80 + n % 64 = b.toNat := by
    rw [← same, toNat_continuation]
  have val (is : c.val = 0xFEFF) : c = mark := by
    obtain ⟨n, lt⟩ := c
    subst is
    rfl
  rw [encodeCodePoint] at alike
  split at alike
  · simp only [byteOrderMark, List.cons_append, List.nil_append, List.cons_prefix_cons] at alike
    have first := byte (n := c.val) (b := 0xEF) (by omega) (by tauto)
    change c.val = 239 at first
    omega
  split at alike
  · simp only [byteOrderMark, List.cons_append, List.nil_append, List.cons_prefix_cons] at alike
    have first := byte (n := 0xC0 + c.val / 64) (b := 0xEF) (by omega) (by tauto)
    change _ = 239 at first
    omega
  split at alike
  · simp only [byteOrderMark, List.cons_append, List.nil_append, List.cons_prefix_cons] at alike
    have first := byte (n := 0xE0 + c.val / 4096) (b := 0xEF) (by omega) (by tauto)
    have second := next (n := c.val / 64) (b := 0xBB) (by tauto)
    have third := next (n := c.val) (b := 0xBF) (by tauto)
    change _ = 239 at first
    change _ = 187 at second
    change _ = 191 at third
    exact val (by omega)
  · simp only [byteOrderMark, List.cons_append, List.nil_append, List.cons_prefix_cons] at alike
    have first := byte (n := 0xF0 + c.val / 262144) (b := 0xEF) (by omega) (by tauto)
    change _ = 239 at first
    omega

/-- A text that does not begin with a byte order mark is decoded from its encoding, where a mark may
stand in front or not. -/
theorem decodeMarked_flatMap (scalar : s.IsScalar) (unmarked : mark ∉ s) :
    decodeMarked (s.flatMap encodeCodePoint) = .ok s := by
  cases s with
  | nil => rfl
  | cons c s =>
    rw [isScalar_cons] at scalar
    rw [List.mem_cons, not_or] at unmarked
    rw [decodeMarked, if_neg, if_neg]
    · exact decode_flatMap (isScalar_cons.2 scalar)
    · rw [List.isPrefixOf_iff_prefix]
      exact fun alike => unmarked.1 (eq_mark scalar.1 (.inr alike)).symm
    · rw [List.isPrefixOf_iff_prefix]
      exact fun alike => unmarked.1 (eq_mark scalar.1 (.inl alike)).symm

/-! ## What is decoded -/

theorem continue?_cons_eq_ok {bits taken : Nat} {low high : UInt8} {ranges : List (UInt8 × UInt8)}
    {bytes : Bytes} {found : Nat × Bytes} (tail : 0x80 ≤ low.toNat)
    (reads : continue? bits taken ((low, high) :: ranges) bytes = .ok found) :
    ∃ x more, low.toNat ≤ 0x80 + x ∧ 0x80 + x ≤ high.toNat ∧
      continue? (bits * 64 + x) (taken + 1) ranges more = .ok found := by
  cases bytes with
  | nil => cases reads
  | cons b bytes =>
    rw [continue?] at reads
    split at reads
    · rename_i inside
      rw [UInt8.le_iff_toNat_le, UInt8.le_iff_toNat_le] at inside
      exact ⟨b.toNat - 0x80, bytes, by omega, by omega, reads⟩
    · cases reads

theorem no_surrogate_of_reads {b : UInt8} {bits n : Nat} {ranges : List (UInt8 × UInt8)}
    {bytes rest : Bytes} (lead : lead? b = some (bits, ranges))
    (reads : continue? bits 1 ranges bytes = .ok (n, rest)) : n < 0xD800 ∨ 0xDFFF < n := by
  simp only [lead?] at lead
  split at lead
  · obtain ⟨rfl, rfl⟩ := Prod.mk.inj (Option.some.inj lead)
    obtain ⟨rfl, -⟩ := Prod.mk.inj (Except.ok.inj reads)
    omega
  split at lead
  · cases lead
  split at lead
  · obtain ⟨rfl, rfl⟩ := Prod.mk.inj (Option.some.inj lead)
    obtain ⟨x, _, -, below, reads⟩ := continue?_cons_eq_ok (by decide) reads
    obtain ⟨rfl, -⟩ := Prod.mk.inj (Except.ok.inj reads)
    change _ ≤ 191 at below
    omega
  split at lead
  · obtain ⟨rfl, rfl⟩ := Prod.mk.inj (Option.some.inj lead)
    -- The first byte alone tells on which side of the surrogates the sequence lies, save for 0xED.
    split at reads
    · obtain ⟨x, _, -, below, reads⟩ := continue?_cons_eq_ok (by decide) reads
      obtain ⟨y, _, -, below', reads⟩ := continue?_cons_eq_ok (by decide) reads
      obtain ⟨rfl, -⟩ := Prod.mk.inj (Except.ok.inj reads)
      change _ ≤ 191 at below below'
      omega
    split at reads
    · obtain ⟨x, _, -, below, reads⟩ := continue?_cons_eq_ok (by decide) reads
      obtain ⟨y, _, -, below', reads⟩ := continue?_cons_eq_ok (by decide) reads
      obtain ⟨rfl, -⟩ := Prod.mk.inj (Except.ok.inj reads)
      change _ ≤ 159 at below
      change _ ≤ 191 at below'
      omega
    · obtain ⟨x, _, -, below, reads⟩ := continue?_cons_eq_ok (by decide) reads
      obtain ⟨y, _, -, below', reads⟩ := continue?_cons_eq_ok (by decide) reads
      obtain ⟨rfl, -⟩ := Prod.mk.inj (Except.ok.inj reads)
      change _ ≤ 191 at below below'
      omega
  split at lead
  · obtain ⟨rfl, rfl⟩ := Prod.mk.inj (Option.some.inj lead)
    have later {bits taken n : Nat} {bytes rest : Bytes} (many : 0x10 ≤ bits)
        (reads : continue? bits taken [(0x80, 0xBF), (0x80, 0xBF)] bytes = .ok (n, rest)) :
        0xDFFF < n := by
      obtain ⟨y, _, -, -, reads⟩ := continue?_cons_eq_ok (by decide) reads
      obtain ⟨z, _, -, -, reads⟩ := continue?_cons_eq_ok (by decide) reads
      obtain ⟨rfl, -⟩ := Prod.mk.inj (Except.ok.inj reads)
      omega
    right
    split at reads
    · obtain ⟨x, _, above, -, reads⟩ := continue?_cons_eq_ok (by decide) reads
      change 144 ≤ _ at above
      exact later (by omega) reads
    split at reads
    · obtain ⟨x, _, -, -, reads⟩ := continue?_cons_eq_ok (by decide) reads
      exact later (by omega) reads
    · obtain ⟨x, _, -, -, reads⟩ := continue?_cons_eq_ok (by decide) reads
      exact later (by omega) reads
  · cases lead

theorem isScalar_of_decodeFrom {start : Nat} {done : Text} {bytes : Bytes}
    (scalar : done.IsScalar) (decoded : decodeFrom start done bytes = .ok s) : s.IsScalar := by
  fun_induction decodeFrom start done bytes with
  | case1 =>
    obtain rfl := Except.ok.inj decoded
    exact scalar.subset fun c => List.mem_reverse.1
  | case2 => cases decoded
  | case3 => cases decoded
  | case4 => cases decoded
  | case5 =>
    rename_i lead n rest reads _ c made ih
    refine ih (isScalar_cons.2 ⟨?_, scalar⟩) decoded
    have other := no_surrogate_of_reads lead reads
    rw [CodePoint.ofNat?] at made
    split at made
    · obtain rfl := Option.some.inj made
      rw [Bool.eq_false_iff, isSurrogate, ne_eq, Bool.and_eq_true, decide_eq_true_eq,
        decide_eq_true_eq]
      dsimp only
      omega
    · cases made

theorem isScalar_of_decodeMarked {bytes : Bytes} (decoded : decodeMarked bytes = .ok s) :
    s.IsScalar := by
  rw [decodeMarked] at decoded
  split at decoded
  · obtain rfl := Except.ok.inj decoded
    exact isScalar_nil
  split at decoded
  · exact isScalar_of_decodeFrom isScalar_nil decoded
  · exact isScalar_of_decodeFrom isScalar_nil decoded

end JavaUnits.Text.Utf8
