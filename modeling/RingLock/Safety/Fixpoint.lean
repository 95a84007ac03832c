import RingLock.Arena.Basic
import RingLock.Safety.Stats

/-!
# Safety fixpoint

From a location of the controllable predecessor of a target, some single action sends every
successor into the target. An action without successors does so as well. The winning region is what
is left of a target when, again and again, the locations without such an action are taken away: the
controller can stay in it forever.

A round compares flags and stored number. So a target with a wrong number costs one more round, and
the result has the right one.
-/
namespace RingLock

variable {L : Type} [DecidableEq L] [Hashable L]

/-- The locations with an action whose successors all lie in the target. -/
def Arena.controllable (g : Arena L) (target : Region) : Region :=
  Region.ofFn g.size fun id => (g.row id).any fun targets => targets.all target.contains

/-- One round: the members of a region that have an action staying in it. -/
def Arena.narrow (g : Arena L) (r : Region) : Region := r.inter (g.controllable r)

namespace Solver

/-- Rounds until nothing changes. Each is counted as an iteration and as a use of the controllable
predecessor. Both counters run in step, so `room` further rounds can be counted in either. -/
def descend? (g : Arena L) : (room : Nat) → Stats → Region → Option (Region × Stats)
  | 0, _, _ => none
  | room + 1, stats, current =>
    let next := g.narrow current
    let stats := { stats with
      predecessorCalls := stats.predecessorCalls + 1
      iterations := stats.iterations + 1 }
    if next = current then some (current, { stats with finalSize := current.count })
    else descend? g room stats next

/-- The winning region of a target, with the statistics of the run. There is none for a target with
another bound than the arena. -/
def winning? (g : Arena L) (stats : Stats) (target : Region) : Option (Region × Stats) :=
  if target.bound = g.size then
    descend? g (UInt32.size - 1) { stats.reset with initialSize := target.count } target
  else none

/-- The controllable predecessor, counted. -/
def controllable? (g : Arena L) (stats : Stats) (target : Region) : Option (Region × Stats) :=
  stats.countCall?.map fun stats => (g.controllable target, stats)

/-- What a solver is asked for. -/
inductive Query where
  | controllable (target : Region)
  | winning (target : Region)

/-- One answer, with the statistics after it. -/
def answer? (g : Arena L) (stats : Stats) : Query → Option (Region × Stats)
  | .controllable target => controllable? g stats target
  | .winning target => winning? g stats target

/-- The answers of one solver to several queries, each with the statistics after it. -/
def answers? (g : Arena L) : Stats → List Query → Option (List (Region × Stats))
  | _, [] => some []
  | stats, query :: queries => do
    let answer ← answer? g stats query
    let rest ← answers? g answer.2 queries
    return answer :: rest

end Solver

/-- The winning region of a target. -/
def Arena.winningRegion? (g : Arena L) (target : Region) : Option Region :=
  (Solver.winning? g .zero target).map Prod.fst

end RingLock
