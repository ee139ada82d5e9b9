/-!
# Spans

A span is a pair of byte offsets into the UTF-8 source. Nothing forces `start ≤ stop`: spans also
come from callers, so every operation answers for a reversed one.
-/

namespace LenientR

structure Span where
  /-- Offset of the first byte. -/
  start : Nat
  /-- Offset just past the last byte. -/
  stop : Nat
deriving DecidableEq, Repr

namespace Span

def point (position : Nat) : Span := ⟨position, position⟩

/-- The span no location has been given to; it is the identity of `merge`. -/
def unset : Span := ⟨0, 0⟩

/-- The smallest span over both, where `unset` counts as no span at all. -/
def merge (a b : Span) : Span :=
  if a = unset then b
  else if b = unset then a
  else ⟨min a.start b.start, max a.stop b.stop⟩

def contains (a b : Span) : Bool := a.start ≤ b.start && b.stop ≤ a.stop

/-- The end is included: a cursor just after a node still belongs to it. -/
def containsPosition (a : Span) (position : Nat) : Bool := a.contains (point position)

def hull : List Span → Option Span
  | [] => none
  | first :: rest => some (rest.foldl merge first)

/-- What there is of a range in a text of this many bytes. -/
def cut (size : Nat) (range : Span) : Span :=
  ⟨min range.start (min range.stop size), min range.stop size⟩

theorem containsPosition_iff {a : Span} {position : Nat} :
    a.containsPosition position = true ↔ a.start ≤ position ∧ position ≤ a.stop := by
  unfold containsPosition contains
  rw [Bool.and_eq_true, decide_eq_true_eq, decide_eq_true_eq]
  rfl

theorem unset_merge (a : Span) : unset.merge a = a := by
  simp [merge]

theorem merge_unset (a : Span) : a.merge unset = a := by
  unfold merge
  split <;> simp_all

end Span

end LenientR
