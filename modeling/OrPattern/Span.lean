namespace OrPattern

/-- The byte range of the source a pattern was read from; `stop` is the first
    byte after it. -/
structure Span where
  start : UInt32
  stop : UInt32
deriving DecidableEq, Repr

namespace Span

/-- The span of a pattern that no source text gave rise to. -/
def none : Span := ⟨0, 0⟩

def length (span : Span) : UInt32 := span.stop - span.start

def isEmpty (span : Span) : Bool := span.start == span.stop

/-- Whether `inner` lies within `outer`, ends included. -/
def contains (outer inner : Span) : Bool :=
  outer.start ≤ inner.start && inner.stop ≤ outer.stop

/-- The smallest span that covers both. -/
def merge (a b : Span) : Span := ⟨min a.start b.start, max a.stop b.stop⟩

def render (span : Span) : String := s!"{span.start.toNat}..{span.stop.toNat}"

end Span

end OrPattern
