import JavaUnits.Text.Utf8

/-!
Texts in units of two or four bytes. No text is expected to begin with a null, so zeros among its
first four bytes tell how wide the units are and which byte of a unit comes first. Surrogates that
make no pair stay what they are.
-/

namespace JavaUnits.Text

inductive Units where
  | two (bigEndian : Bool)
  | four (bigEndian : Bool)
  deriving DecidableEq

namespace Units

/-- The units of a text of which these are the bytes, unless they are single bytes. -/
def detect? : Bytes → Option Units
  | a :: b :: c :: d :: _ =>
    if a = 0 then some (if b = 0 then four true else two true)
    else if b = 0 then some (if c = 0 ∧ d = 0 then four false else two false)
    else none
  | [a, b] => if a = 0 then some (two true) else if b = 0 then some (two false) else none
  | _ => none

def bigEndian : Units → Bool
  | two b | four b => b

/-- The number that the bytes of a unit are. -/
def value (u : Units) (bytes : Bytes) : Nat :=
  (if u.bigEndian then bytes else bytes.reverse).foldl (fun n b => 256 * n + b.toNat) 0

/-- The numbers of all units, if no bytes are left over. -/
def values? (u : Units) : Bytes → Option (List Nat)
  | [] => some []
  | a :: b :: rest =>
    match u, rest with
    | two _, rest => (values? u rest).map (u.value [a, b] :: ·)
    | four _, c :: d :: rest => (values? u rest).map (u.value [a, b, c, d] :: ·)
    | four _, _ => none
  | [_] => none

/-- A high and a low surrogate become the number that the two stand for. -/
def joinSurrogates : List Nat → List Nat
  | high :: low :: ns =>
    if 0xD800 ≤ high ∧ high ≤ 0xDBFF ∧ 0xDC00 ≤ low ∧ low ≤ 0xDFFF then
      (0x10000 + (high - 0xD800) * 0x400 + (low - 0xDC00)) :: joinSurrogates ns
    else high :: joinSurrogates (low :: ns)
  | ns => ns

def decode? (u : Units) (bytes : Bytes) : Option Text := do
  let values ← values? u bytes
  match u with
  | two _ => (joinSurrogates values).mapM CodePoint.ofNat?
  | four _ => values.mapM CodePoint.ofNat?

end Units

end JavaUnits.Text
