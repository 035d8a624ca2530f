namespace Caret

/-- The bytes from `start` up to, not including, `stop`. -/
structure Span where
  start : Nat
  stop : Nat
  deriving DecidableEq, Repr, Inhabited

namespace Span

def empty (offset : Nat) : Span := ⟨offset, offset⟩

def size (span : Span) : Nat := span.stop - span.start

def isEmpty (span : Span) : Bool := span.start = span.stop

/-- Both ends count as touched. -/
def touches (span : Span) (offset : Nat) : Bool := span.start ≤ offset && offset ≤ span.stop

def strictlyContains (span : Span) (offset : Nat) : Bool :=
  span.start < offset && offset < span.stop

def contains (outer inner : Span) : Bool := outer.start ≤ inner.start && inner.stop ≤ outer.stop

/-- The part of a span that lies in the first `size` bytes. -/
def clamp (span : Span) (size : Nat) : Span :=
  let stop := min span.stop size
  ⟨min span.start stop, stop⟩

theorem clamp_start_le_stop (span : Span) (size : Nat) :
    (span.clamp size).start ≤ (span.clamp size).stop :=
  Nat.min_le_right _ _

theorem clamp_stop_le (span : Span) (size : Nat) : (span.clamp size).stop ≤ size :=
  Nat.min_le_right _ _

theorem clamp_eq {span : Span} {size : Nat} (hle : span.start ≤ span.stop) (h : span.stop ≤ size) :
    span.clamp size = span := by
  rw [clamp, Nat.min_eq_left h, Nat.min_eq_left hle]

end Span

end Caret
