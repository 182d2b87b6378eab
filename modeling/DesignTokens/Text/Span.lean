/-!
A span is a half-open range of bytes in a text. Both ends count as inside when a place is looked up,
so that a cursor standing right behind a word still belongs to it.
-/

namespace DesignTokens

structure Span where
  start : Nat
  stop : Nat
  deriving DecidableEq, Repr, Inhabited

namespace Span

def length (s : Span) : Nat :=
  s.stop - s.start

def isEmpty (s : Span) : Bool :=
  s.start == s.stop

/-- Whether the offset lies in the span or right behind it. -/
def contains (s : Span) (offset : Nat) : Bool :=
  s.start ≤ offset && offset ≤ s.stop

end Span
end DesignTokens
