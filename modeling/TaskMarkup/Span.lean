
namespace TaskMarkup

structure Span where
  start : Nat
  stop : Nat
  indent : Nat
  deriving DecidableEq, Repr

namespace Span

def contains (s : Span) (offset : Nat) : Bool := s.start ≤ offset && offset < s.stop

def relativeTo (origin : Nat) (s : Span) : Span :=
  { s with start := s.start - origin, stop := s.stop - origin }

end Span

end TaskMarkup
