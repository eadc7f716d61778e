/-!
# Spans

A span is a half-open range `[start, stop)` of byte offsets into an assembly text; diagnostics
point at the text through it. A span whose ends are given in the wrong order is empty: its
length stops at zero.
-/

namespace WindowVm

/-- The byte range `[start, stop)` of an assembly text. -/
structure Span where
  start : Nat
  stop : Nat
deriving DecidableEq, Inhabited, Repr

namespace Span

/-- The empty span at one offset, as a missing operand is reported. -/
def point (offset : Nat) : Span := ⟨offset, offset⟩

/-- The number of bytes covered; zero when `stop` is not after `start`. -/
def len (s : Span) : Nat := s.stop - s.start

def isEmpty (s : Span) : Bool := s.len == 0

@[simp] theorem len_point (n : Nat) : (point n).len = 0 := by simp [point, len]

end Span

end WindowVm
