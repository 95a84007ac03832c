import RingLock.Text.Inspect

/-!
# Faults

The causes for which a configuration, a live ring, an arena or a snapshot is refused. Each cause
carries what its message names. An `Attempt` keeps a refusal apart from a computation that would
leave the range of its machine words.
-/
namespace RingLock

inductive Fault where
  | initialNotListed (initial : String)
  | moveOutside (source action target : String)
  | handTooLarge (hand holes : UInt64)
  | emptyHand
  | holeCount (holes max : UInt64)
  | colorCount (colors max : UInt64)
  | emptyPalette
  | colorOutside (color palette : UInt8)
  | unobserved (location : String)
  | snapshot (reason : String)
  deriving DecidableEq

/-- A construction. `none`: some number left its machine range. `some (.error f)`: refused for
the cause `f`. `some (.ok x)`: built. -/
abbrev Attempt := ExceptT Fault Option

/-- A refusal or a result, with every number in range. -/
def Attempt.ofExcept {α : Type} (x : Except Fault α) : Attempt α := ExceptT.mk (some x)

/-- A result, unless some number left its range. -/
def Attempt.ofOption {α : Type} (x : Option α) : Attempt α := ExceptT.mk (x.map .ok)

namespace Fault

/-- The sentence shown to the user. -/
def message : Fault → String
  | initialNotListed initial => s!"initial location {initial} is not in the location set"
  | moveOutside source action target =>
    s!"transition ({source}, {action}, {target}) is not in locations x actions x locations"
  | handTooLarge hand holes => s!"hand size {hand} exceeds hole count {holes}"
  | emptyHand => "hand size must be at least 1"
  | holeCount holes max => s!"hole count {holes} must be between 1 and {max}"
  | colorCount colors max => s!"color count {colors} must be between 2 and {max}"
  | emptyPalette => "palette must hold at least one color"
  | colorOutside color palette => s!"color {color} is outside a palette of {palette}"
  | unobserved location => s!"location {location} has no observation class"
  | snapshot reason => s!"invalid graph snapshot: {reason}"

/-- The name under which a cause is reported. -/
def label : Fault → String
  | initialNotListed _ => "InitialNotInLocations"
  | moveOutside .. => "TransitionOutOfDomain"
  | handTooLarge .. => "HandExceedsHoles"
  | emptyHand => "EmptyHand"
  | holeCount .. => "HoleCount"
  | colorCount .. => "ColorCount"
  | emptyPalette => "EmptyPalette"
  | colorOutside .. => "ColorOutOfPalette"
  | unobserved _ => "ObservationMissing"
  | snapshot _ => "Snapshot"

/-- What a cause carries, by name and in the order in which it is shown. -/
def details : Fault → List (String × String)
  | initialNotListed initial => [("initial", inspect initial)]
  | moveOutside source action target =>
    [("from", inspect source), ("action", inspect action), ("to", inspect target)]
  | handTooLarge hand holes => [("hand", inspect hand), ("holes", inspect holes)]
  | emptyHand => []
  | holeCount holes max => [("holes", inspect holes), ("max", inspect max)]
  | colorCount colors max => [("colors", inspect colors), ("max", inspect max)]
  | emptyPalette => []
  | colorOutside color palette => [("color", inspect color), ("palette", inspect palette)]
  | unobserved location => [("location", inspect location)]
  | snapshot reason => [("message", inspect reason)]

/-- A cause without details is its label alone. -/
instance : Inspect Fault where
  inspect f :=
    match f.details with
    | [] => f.label
    | ds => f.label ++ " \x7b " ++ ", ".intercalate (ds.map fun d => d.1 ++ ": " ++ d.2) ++ " \x7d"

end Fault

end RingLock
