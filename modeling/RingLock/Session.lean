import RingLock.Config
import RingLock.Ring

/-!
# Sessions

One game of the puzzle as a sequence of turns. The player chooses as many holes as the hand holds,
cycles their colors and ends the turn. Then the adversary turns the ring by a drawn amount. A ring
of one color ends the game at once. A call that does not fit the phase is refused and changes
nothing.
-/
namespace RingLock

inductive Phase where
  /-- The player is choosing holes. -/
  | select
  /-- The player is recoloring the chosen holes. -/
  | modify
  /-- The adversary is to turn the ring. -/
  | adversary
  /-- The ring shows one color. -/
  | victory
  deriving DecidableEq

namespace Phase

def name : Phase → String
  | select => "Select"
  | modify => "Modify"
  | adversary => "Adversary"
  | victory => "Victory"

/-- The phases in the order of a turn. -/
def all : List Phase := [select, modify, adversary, victory]

end Phase

structure Session where
  ring : Ring
  phase : Phase
  /-- How many holes fill the hand. -/
  handSize : Nat
  /-- The holes chosen in this turn, in the order of the choice. -/
  chosen : List UInt8
  adversary : Generator
  /-- Turns of the adversary so far. -/
  rounds : UInt32
  deriving DecidableEq

namespace Session

/-- A ring of one color ends the game. -/
def settle (s : Session) : Session := if s.ring.isWon then { s with phase := .victory } else s

/-- A session on a known ring. -/
def start (ring : Ring) (handSize : Nat) (adversary : Generator) : Session :=
  settle ⟨ring, .select, handSize, [], adversary, 0⟩

/-- A session on the ring drawn from the seed. The adversary plays with a child of the generator,
so its turns do not depend on the draws that colored the ring. -/
def ofConfig (c : Config) : Attempt Session := do
  Attempt.ofExcept c.check
  Attempt.ofOption do
    let (ring, g) ← Ring.random? c.holes.toNat c.colors.toUInt8 (.ofSeed c.seed)
    let (adversary, _) ← g.fork?
    return start ring c.hand.toNat adversary

/-- The chosen holes as a hand. -/
def hand (s : Session) : Hand := ⟨s.chosen⟩

/-- Whether a hole can be added to the hand now. -/
def Selectable (s : Session) (hole : Nat) : Prop :=
  s.phase = .select ∧ hole < s.ring.size ∧ hole < 256 ∧ UInt8.ofNat hole ∉ s.chosen

instance (s : Session) (hole : Nat) : Decidable (s.Selectable hole) :=
  inferInstanceAs (Decidable (_ ∧ _))

/-- Adds a hole to the hand. A full hand opens the recoloring. -/
def select (s : Session) (hole : Nat) : Session × Bool :=
  if s.Selectable hole then
    let chosen := s.chosen ++ [UInt8.ofNat hole]
    ({ s with chosen, phase := if s.handSize ≤ chosen.length then .modify else .select }, true)
  else (s, false)

/-- Whether a hole can be recolored now. -/
def Recolorable (s : Session) (hole : Nat) : Prop :=
  s.phase = .modify ∧ hole < 256 ∧ UInt8.ofNat hole ∈ s.chosen

instance (s : Session) (hole : Nat) : Decidable (s.Recolorable hole) :=
  inferInstanceAs (Decidable (_ ∧ _))

/-- Advances the color of a chosen hole. -/
def cycle? (s : Session) (hole : Nat) : Option (Session × Bool) :=
  if s.Recolorable hole then
    (s.ring.cycle? hole).map fun ring => (settle { s with ring }, true)
  else some (s, false)

/-- Ends the turn of the player. -/
def commit (s : Session) : Session × Bool :=
  if s.phase = .modify then ({ s with chosen := [], phase := .adversary }, true) else (s, false)

/-- The ring turned by an amount, and the next turn of the player. Rounds are counted in 32 bits. -/
def turnBy? (s : Session) (amount : Nat) : Option Session :=
  if s.rounds.toNat + 1 < UInt32.size then
    some (settle { s with
      ring := s.ring.rotate amount
      rounds := s.rounds + 1
      phase := .select })
  else none

/-- The answer of the adversary: a turn by an amount drawn below the size of the ring, which is then
returned. -/
def respond? (s : Session) : Option (Session × Option Nat) :=
  if s.phase = .adversary then do
    let (amount, adversary) ← s.adversary.below64? (max s.ring.size 1)
    let turned ← turnBy? { s with adversary } amount
    return (turned, some amount)
  else some (s, none)

/-- What can be asked of a session. -/
inductive Call where
  | select (hole : Nat)
  | cycle (hole : Nat)
  | commit
  | respond
  deriving DecidableEq

/-- What a session answers: whether a call of the player was accepted, or by how much the adversary
turned the ring. -/
inductive Reply where
  | accepted (yes : Bool)
  | turned (amount : Option Nat)
  deriving DecidableEq

/-- One call. -/
def step? (s : Session) : Call → Option (Session × Reply)
  | .select hole => let (s, yes) := s.select hole; some (s, .accepted yes)
  | .cycle hole => (s.cycle? hole).map fun (s, yes) => (s, .accepted yes)
  | .commit => let (s, yes) := s.commit; some (s, .accepted yes)
  | .respond => s.respond?.map fun (s, amount) => (s, .turned amount)

/-- Several calls, with the session after each and its answer. -/
def run? : Session → List Call → Option (List (Session × Reply))
  | _, [] => some []
  | s, call :: calls => do
    let (s, reply) ← s.step? call
    let rest ← run? s calls
    return (s, reply) :: rest

/-- Settling touches the phase alone. -/
@[simp] theorem settle_ring (s : Session) : s.settle.ring = s.ring := by
  unfold settle; split <;> rfl

@[simp] theorem settle_adversary (s : Session) : s.settle.adversary = s.adversary := by
  unfold settle; split <;> rfl

@[simp] theorem settle_rounds (s : Session) : s.settle.rounds = s.rounds := by
  unfold settle; split <;> rfl

@[simp] theorem settle_chosen (s : Session) : s.settle.chosen = s.chosen := by
  unfold settle; split <;> rfl

/-- A refused choice leaves the session as it was. -/
theorem select_of_not_selectable {s : Session} {hole : Nat} (h : ¬s.Selectable hole) :
    s.select hole = (s, false) := if_neg h

theorem cycle?_of_not_recolorable {s : Session} {hole : Nat} (h : ¬s.Recolorable hole) :
    s.cycle? hole = some (s, false) := if_neg h

/-- Outside the phase of the adversary there is no turn and no draw. -/
theorem respond?_of_phase_ne {s : Session} (h : s.phase ≠ .adversary) :
    s.respond? = some (s, none) := if_neg h

end Session

end RingLock
