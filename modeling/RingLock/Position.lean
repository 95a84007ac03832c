import RingLock.Coloring.Packed

/-!
# Positions

A position of the puzzle between two turns: what the ring shows and which holes await recoloring.
-/
namespace RingLock

structure Position (C : Type) where
  coloring : C
  hand : Hand
  deriving DecidableEq, Hashable

namespace Position

variable {C : Type}

/-- Positions are ordered by coloring, then by hand. -/
instance [Ord C] : Ord (Position C) :=
  ⟨fun p q => (compare p.coloring q.coloring).then (compare p.hand q.hand)⟩

instance [ToString C] : ToString (Position C) := ⟨fun p => s!"({p.coloring}, {p.hand})"⟩

instance [Inspect C] : Inspect (Position C) where
  inspect p := "LockLocation \x7b coloring: " ++ inspect p.coloring ++ ", selection: " ++
    inspect p.hand ++ " \x7d"

end Position

end RingLock
