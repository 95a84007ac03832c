import RingLock.Coloring.Packed
import RingLock.Puzzle.Basic

/-!
# The two-color model

Colorings are packed into words. A ring of one color is absorbing: it stays as it is under action 0,
and no other action applies to it. From every other ring the player has to choose a full hand.
-/
namespace RingLock.Puzzle

/-- The moves from a position of the two-color model. -/
def twoColorSteps? (c : Config) (p : Position Packed) : Option (List (Step Packed)) :=
  if p.coloring.isUniform c.holes.toNat then some [(p, .ofNat 0, p)]
  else turns? c (Hand.full c.holes.toNat c.hand.toNat) p

/-- Expands a lock with two colors, whatever number of colors is configured. -/
def twoColor (c : Config) : Attempt (Puzzle Packed) := do
  let c := { c with colors := 2 }
  Attempt.ofExcept c.check
  expand c (twoColorSteps? c)

end RingLock.Puzzle
