import JavaUnits.Text.Hexadecimal

/-!
Unicode escapes: a backslash, one or more letters u and four digits stand for one code point. A
backslash before any other code point shields that one from opening an escape. The digits may be
fewer at the end of the text.

A marker with nothing after it is no escape, and the text since the last escape is kept twice: once
up to the marker's backslash and once whole.
-/

namespace JavaUnits.Text.Escape

inductive Failure where
  | malformed (digits : Text)
  | negative
  deriving DecidableEq

/-- The text before the first marker, and what follows the marker. The text already passed is
`passed`, the nearest first. -/
def firstMarker? (passed : Text) : Text → Option (Text × Text)
  | [] => none
  | [_] => none
  | c :: d :: s =>
    if c = '\\' then
      if d = 'u' then some (passed.reverse, s.dropWhile fun e : CodePoint => e = 'u')
      else firstMarker? (d :: c :: passed) s
    else firstMarker? (c :: passed) (d :: s)

theorem firstMarker?_length {s passed before after : Text}
    (h : firstMarker? passed s = some (before, after)) : after.length < s.length := by
  fun_induction firstMarker? passed s with
  | case1 => simp at h
  | case2 => simp at h
  | case3 passed s =>
    simp only [Option.some.injEq, Prod.mk.injEq] at h
    rw [← h.2]
    have := (List.dropWhile_sublist (l := s) fun e : CodePoint => decide (e = 'u')).length_le
    simp only [List.length_cons]
    omega
  | case4 passed d s hd ih =>
    have := ih h
    simp only [List.length_cons]
    omega
  | case5 passed c d s hc ih =>
    have := ih h
    simp only [List.length_cons] at this ⊢
    omega

def value (digits : Text) : Except Failure CodePoint :=
  match Hexadecimal.read? digits with
  | none => .error (.malformed digits)
  | some n =>
    match if n < 0 then none else CodePoint.ofNat? n.toNat with
    | none => .error .negative
    | some c => .ok c

def decode (s : Text) : Except Failure Text :=
  match h : firstMarker? [] s with
  | none => .ok s
  | some (before, after) =>
    if after.isEmpty then .ok (before ++ s)
    else
      match value (after.take 4) with
      | .error failure => .error failure
      | .ok c =>
        have := firstMarker?_length h
        match decode (after.drop 4) with
        | .error failure => .error failure
        | .ok rest => .ok (before ++ c :: rest)
termination_by s.length
decreasing_by
  simp only [List.length_drop]
  omega

end JavaUnits.Text.Escape
