/-!
# Run statistics

Counters of a solver. A run of the fixpoint clears them all before it counts. The clock is outside
this library, so the time is whatever the caller measured, and 0 after a run.
-/
namespace RingLock

structure Stats where
  /-- Steps of the fixpoint. -/
  iterations : UInt32
  /-- Uses of the controllable predecessor. -/
  predecessorCalls : UInt32
  /-- Size of the target of the fixpoint. -/
  initialSize : UInt64
  /-- Size of its result. -/
  finalSize : UInt64
  /-- Time of the run in microseconds. -/
  micros : UInt64
  deriving DecidableEq

namespace Stats

/-- Nothing counted yet. -/
def zero : Stats := ⟨0, 0, 0, 0, 0⟩

instance : Inhabited Stats := ⟨zero⟩

/-- Clears every counter. -/
def reset (_ : Stats) : Stats := zero

/-- How many members of the target the fixpoint took away. A result larger than its target counts
as nothing taken away. -/
def pruned (s : Stats) : Nat := s.initialSize.toNat - s.finalSize.toNat

/-- The time of one step, in microseconds. Without steps it is zero. -/
def microsPerIteration (s : Stats) : Float :=
  if s.iterations = 0 then 0 else s.micros.toFloat / s.iterations.toFloat

/-- One more use of the controllable predecessor, as far as 32 bits count. -/
def countCall? (s : Stats) : Option Stats :=
  if s.predecessorCalls.toNat + 1 < UInt32.size then
    some { s with predecessorCalls := s.predecessorCalls + 1 }
  else none

@[simp] theorem reset_eq (s : Stats) : s.reset = zero := rfl

end Stats

end RingLock
