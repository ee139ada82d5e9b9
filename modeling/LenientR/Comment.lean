import LenientR.Span

/-!
# Comments

Comments are no part of the tree; only where they are is kept, in source order.
-/

namespace LenientR

abbrev Comments := List Span

namespace Comments

/-- The comment that contains a position. Its end counts as within it: a cursor at the end of the
line is still in the comment. -/
def at? (comments : Comments) (position : Nat) : Option Span :=
  (comments.find? (position ≤ ·.stop)).filter (·.containsPosition position)

def contains (comments : Comments) (position : Nat) : Bool := (comments.at? position).isSome

end Comments

end LenientR
