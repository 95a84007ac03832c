import RingLock.Config
import RingLock.Position
import RingLock.Random.Generator
import RingLock.Safety.Fixpoint

/-!
# Puzzles

A lock expanded into an arena. In every turn the adversary turns the ring, then the player recolors
the hand chosen in the turn before and chooses the next one. The arena is seen from the adversary's
side: an action is an amount of turning, and its successors are what the player can make of it. So
the target is the region of rings of more than one color, and the player wins if the adversary
cannot stay in it from anywhere.

The two models differ in their colorings and in their moves. What they share is here.
-/
namespace RingLock

/-- A move of a puzzle's arena. -/
abbrev Step (C : Type) := Position C × Action × Position C

/-- A lock with its arena and its two regions. -/
structure Puzzle (C : Type) [DecidableEq C] [Hashable C] where
  config : Config
  arena : Arena (Position C)
  /-- Rings of more than one color. -/
  mixed : Region
  /-- Rings of one color. -/
  uniform : Region

namespace Puzzle

variable {C : Type} [DecidableEq C] [Hashable C] [Coloring C]

/-- The positions of a lock: by coloring, then by hand. -/
def positions (c : Config) : List (Position C) :=
  (Coloring.all c.holes.toNat c.colors.toNat).flatMap fun coloring =>
    (Hand.options c.holes.toNat c.hand.toNat).map fun hand => ⟨coloring, hand⟩

/-- The initial position: a coloring drawn from the seed, and no hand. -/
def initial? (c : Config) : Option (Option (Position C)) :=
  let colorings : List C := Coloring.all c.holes.toNat c.colors.toNat
  ((Generator.ofSeed c.seed).choose? colorings).map fun (drawn, _) =>
    drawn.map fun coloring => ⟨coloring, .empty⟩

/-- What a turn by every action, a recoloring of the current hand and a choice of the next one can
make of a position. -/
def turns? (c : Config) (nextHands : List Hand) (p : Position C) : Option (List (Step C)) := do
  let recolorings : List (Coloring.Recoloring C) :=
    Coloring.recolorings c.hand.toNat c.colors.toNat
  let byAction ← (Action.range c.holes.toNat).mapM fun action => do
    let turned ← Coloring.rotate? p.coloring action.amount c.holes.toNat
    let recolored ← recolorings.mapM fun recoloring => Coloring.recolor? turned p.hand recoloring
    return recolored.flatMap fun coloring => nextHands.map fun hand => (p, action, ⟨coloring, hand⟩)
  return byAction.flatten

/-- Expands a lock whose moves from a position are given. -/
def expand [Inspect C] (c : Config) (stepsFrom? : Position C → Option (List (Step C))) :
    Attempt (Puzzle C) := do
  let some initial ← Attempt.ofOption (initial? c)
    | throw (.holeCount c.holes Config.maxHoles)
  let locations := positions c
  let steps ← Attempt.ofOption (locations.mapM stepsFrom?)
  let arena ← Attempt.ofExcept
    (Arena.build locations initial (Action.range c.holes.toNat) steps.flatten)
  let uniform := arena.regionWhere fun p => Coloring.isUniform p.coloring c.holes.toNat
  return { config := c, arena, uniform, mixed := uniform.complement }

/-- Whether the ring of a position shows one color. -/
def isUniform (p : Puzzle C) (position : Position C) : Bool :=
  Coloring.isUniform position.coloring p.config.holes.toNat

/-- The positions from which one turn of the adversary surely leads into a region. -/
def controllable (p : Puzzle C) (target : Region) : Region := p.arena.controllable target

/-- The positions from which the adversary can keep the ring mixed forever. -/
def winningRegion? (p : Puzzle C) : Option Region := p.arena.winningRegion? p.mixed

/-- That region with the statistics of its computation. -/
def solve? (p : Puzzle C) : Option (Region × Stats) := Solver.winning? p.arena .zero p.mixed

/-- Whether the player surely gets a ring of one color, from every position. -/
def playerWins? (p : Puzzle C) : Option Bool := p.winningRegion?.map Region.isEmpty

end Puzzle

end RingLock
