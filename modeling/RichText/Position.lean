import RichText.Node

namespace RichText

-- A point of a tree. In a text the offset counts chars. In any other node it is the index of the
-- child that comes after the point.
structure Position where
  node : NodeId
  offset : Nat
deriving DecidableEq, Repr

structure Span where
  start : Position
  stop : Position
deriving DecidableEq, Repr

namespace Span

def caret (p : Position) : Span where
  start := p
  stop := p

def isCollapsed (s : Span) : Bool :=
  s.start = s.stop

end Span

end RichText
