import JavaUnits.Text.Quoted

/-!
UTF-8. Surrogates have no encoding. A byte sequence that encodes nothing is refused at its first
byte; the reason tells whether that byte begins no sequence, a later one does not continue it, or
the bytes end before the sequence does.
-/

namespace JavaUnits

abbrev Bytes := List UInt8

namespace Text.Utf8

def continuation (bits : Nat) : UInt8 :=
  UInt8.ofNat (0x80 + bits % 64)

def encodeCodePoint (c : CodePoint) : Bytes :=
  let n := c.val
  if n < 0x80 then [UInt8.ofNat n]
  else if n < 0x800 then [UInt8.ofNat (0xC0 + n / 64), continuation n]
  else if n < 0x10000 then
    [UInt8.ofNat (0xE0 + n / 4096), continuation (n / 64), continuation n]
  else
    [UInt8.ofNat (0xF0 + n / 262144), continuation (n / 4096), continuation (n / 64),
      continuation n]

/-- The number of bytes that a text takes, surrogates counted like their neighbours. -/
def size (s : Text) : Nat :=
  s.foldl (fun n c => n + (encodeCodePoint c).length) 0

theorem size_append (s t : Text) : size (s ++ t) = size s + size t := by
  have counts (s : Text) (n : Nat) :
      s.foldl (fun n c => n + (encodeCodePoint c).length) n = n + size s := by
    induction s generalizing n with
    | nil => rfl
    | cons c s ih =>
      rw [size, List.foldl_cons, List.foldl_cons, ih, ih, Nat.zero_add, Nat.add_assoc]
  rw [size, List.foldl_append, counts t]
  rfl

/-- A run of surrogates, the first of which is `first`. -/
structure EncodeError where
  first : CodePoint
  start : Nat
  stop : Nat
  deriving DecidableEq

def EncodeError.message (e : EncodeError) : Text :=
  if e.stop = e.start + 1 then
    Text.ofString "'utf-8' codec can't encode character '" ++ Quoted.escape '\'' e.first
      ++ "' in position " ++ Text.ofNat e.start ++ ": surrogates not allowed"
  else
    Text.ofString "'utf-8' codec can't encode characters in position " ++ Text.ofNat e.start ++ "-"
      ++ Text.ofNat (e.stop - 1) ++ ": surrogates not allowed"

def encode (s : Text) : Except EncodeError Bytes :=
  match s.dropWhile fun c => !c.isSurrogate with
  | [] => .ok (s.flatMap encodeCodePoint)
  | first :: rest =>
    let start := s.length - (first :: rest).length
    .error ⟨first, start, start + 1 + (rest.takeWhile CodePoint.isSurrogate).length⟩

inductive Reason where
  | invalidStart
  | invalidContinuation
  | unexpectedEnd
  deriving DecidableEq

def Reason.text : Reason → Text
  | invalidStart => "invalid start byte"
  | invalidContinuation => "invalid continuation byte"
  | unexpectedEnd => "unexpected end of data"

/-- The bytes from `start` up to `stop`, the first of which is `first`, encode nothing. -/
structure DecodeError where
  reason : Reason
  first : UInt8
  start : Nat
  stop : Nat
  deriving DecidableEq

def DecodeError.message (e : DecodeError) : Text :=
  let place :=
    if e.stop = e.start + 1 then
      Text.ofString "byte 0x" ++ Quoted.hexDigits 2 e.first.toNat ++ " in position "
        ++ Text.ofNat e.start
    else
      Text.ofString "bytes in position " ++ Text.ofNat e.start ++ "-" ++ Text.ofNat (e.stop - 1)
  Text.ofString "'utf-8' codec can't decode " ++ place ++ ": " ++ e.reason.text

/-- For a byte that begins a sequence: the bits it gives, and for each further byte the range in
which it must lie. -/
def lead? (b : UInt8) : Option (Nat × List (UInt8 × UInt8)) :=
  let n := b.toNat
  if n < 0x80 then some (n, [])
  else if n < 0xC2 then none
  else if n < 0xE0 then some (n - 0xC0, [(0x80, 0xBF)])
  else if n < 0xF0 then
    let second := if n = 0xE0 then (0xA0, 0xBF) else if n = 0xED then (0x80, 0x9F) else (0x80, 0xBF)
    some (n - 0xE0, [second, (0x80, 0xBF)])
  else if n < 0xF5 then
    let second := if n = 0xF0 then (0x90, 0xBF) else if n = 0xF4 then (0x80, 0x8F) else (0x80, 0xBF)
    some (n - 0xF0, [second, (0x80, 0xBF), (0x80, 0xBF)])
  else none

/-- Reads the further bytes of a sequence of which `taken` bytes are read and `bits` known. A
failure tells how many bytes of the sequence are read. -/
def continue? (bits taken : Nat) :
    List (UInt8 × UInt8) → Bytes → Except (Reason × Nat) (Nat × Bytes)
  | [], rest => .ok (bits, rest)
  | _ :: _, [] => .error (.unexpectedEnd, taken)
  | (low, high) :: ranges, b :: rest =>
    if low ≤ b ∧ b ≤ high then continue? (bits * 64 + (b.toNat - 0x80)) (taken + 1) ranges rest
    else .error (.invalidContinuation, taken)

theorem continue?_length {bits taken n : Nat} {ranges : List (UInt8 × UInt8)} {bytes rest : Bytes}
    (h : continue? bits taken ranges bytes = .ok (n, rest)) : rest.length ≤ bytes.length := by
  fun_induction continue? bits taken ranges bytes with
  | case1 => simp_all
  | case2 => simp at h
  | case3 bits taken low high ranges b bytes hb ih =>
    have := ih h
    simp only [List.length_cons]
    omega
  | case4 => simp at h

/-- Decodes bytes that begin at `start`, with the text before them reversed in `done`. -/
def decodeFrom (start : Nat) (done : Text) (bytes : Bytes) : Except DecodeError Text :=
  match bytes with
  | [] => .ok done.reverse
  | b :: bytes' =>
    match lead? b with
    | none => .error ⟨.invalidStart, b, start, start + 1⟩
    | some (bits, ranges) =>
      match h : continue? bits 1 ranges bytes' with
      | .error (reason, taken) => .error ⟨reason, b, start, start + taken⟩
      | .ok (n, rest) =>
        have := continue?_length h
        match CodePoint.ofNat? n with
        | none => .error ⟨.invalidStart, b, start, start + 1⟩
        | some c => decodeFrom (start + 1 + ranges.length) (c :: done) rest
termination_by bytes.length

def decode (bytes : Bytes) : Except DecodeError Text :=
  decodeFrom 0 [] bytes

def byteOrderMark : Bytes :=
  [0xEF, 0xBB, 0xBF]

/-- The text after one byte order mark, if there is one. A beginning of a mark alone is no text;
places count from after the mark. -/
def decodeMarked (bytes : Bytes) : Except DecodeError Text :=
  if bytes.isPrefixOf byteOrderMark then .ok []
  else if byteOrderMark.isPrefixOf bytes then decode (bytes.drop byteOrderMark.length)
  else decode bytes

end Text.Utf8

end JavaUnits
