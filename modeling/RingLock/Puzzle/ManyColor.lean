import RingLock.Coloring.Listed
import RingLock.Puzzle.Basic

/-!
# The many-color model

Colorings are lists over any alphabet. A ring of one color keeps its coloring under every action
while the hand becomes any hand. From every other ring, too, the player may choose the empty hand.
-/
namespace RingLock.Puzzle

/-- The moves from a position of the many-color model. -/
def manyColorSteps? (c : Config) (p : Position Listed) : Option (List (Step Listed)) :=
  let hands := Hand.options c.holes.toNat c.hand.toNat
  if neighboursAgree p.coloring.colors then
    some ((Action.range c.holes.toNat).flatMap fun action =>
      hands.map fun hand => (p, action, ⟨p.coloring, hand⟩))
  else turns? c hands p

/-- Expands a lock over the configured alphabet. -/
def manyColor (c : Config) : Attempt (Puzzle Listed) := do
  Attempt.ofExcept c.check
  expand c (manyColorSteps? c)

end RingLock.Puzzle
