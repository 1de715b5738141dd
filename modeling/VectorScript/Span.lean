/-!
# Spans

Where a node or an error stands within a statement: a range of token positions.
-/

namespace VectorScript

/-- The token positions from `start` up to but not including `stop`. -/
structure Span where
  start : Nat
  stop : Nat
deriving DecidableEq, Repr

namespace Span

instance : Inhabited Span := ⟨⟨0, 0⟩⟩

/-- The span of no particular token. -/
def none : Span := ⟨0, 0⟩

def single (position : Nat) : Span := ⟨position, position + 1⟩

/-- The least span around both. -/
def join (s t : Span) : Span := ⟨min s.start t.start, max s.stop t.stop⟩

def isEmpty (s : Span) : Bool := s.stop ≤ s.start

end Span

end VectorScript
