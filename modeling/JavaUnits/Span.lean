import JavaUnits.Text

/-!
Spans of a text, and rendering one with some ranges cut out and some replaced.
-/

namespace JavaUnits

structure Span where
  start : Nat
  stop : Nat
  deriving DecidableEq, Inhabited

/-- Replaces `length` code points from `offset` on by `text`. -/
structure Edit where
  offset : Nat
  length : Nat
  text : Text
  deriving DecidableEq

namespace Span

/-- A replacement in the order in which a rendering meets it. -/
structure Patch where
  span : Span
  text : Text

def Patch.le (p q : Patch) : Bool :=
  p.span.start < q.span.start || p.span.start == q.span.start &&
    (p.span.stop < q.span.stop || p.span.stop == q.span.stop && p.text.le q.text)

/-- The cuts that touch the span and the edits that begin in it, in order. -/
def patches (span : Span) (cuts : List Span) (edits : List Edit) : List Patch :=
  let ofCuts := (cuts.filter fun cut => cut.start < span.stop && span.start < cut.stop).map
    fun cut => Patch.mk cut []
  let ofEdits := (edits.filter fun e => span.start ≤ e.offset && e.offset < span.stop).map
    fun e => Patch.mk ⟨e.offset, e.offset + e.length⟩ e.text
  (ofCuts ++ ofEdits).mergeSort Patch.le

/-- The text from `position` up to `stop` with the patches applied. A patch that begins before the
position is applied at the position. -/
def sweep (code : Text) (stop position : Nat) : List Patch → Text
  | [] => code.slice position stop
  | patch :: rest =>
    code.slice position (max patch.span.start position) ++ patch.text
      ++ sweep code stop (max position patch.span.stop) rest

def render (code : Text) (span : Span) (cuts : List Span) (edits : List Edit) : Text :=
  sweep code span.stop span.start (span.patches cuts edits)

end Span

end JavaUnits
