import RingLock.Arena.Basic
import RingLock.Encoding.Values

/-!
# Snapshots

A snapshot is an arena without its look-up tables, as it is stored. Restoring one checks all that
`build` guarantees: distinct locations and actions, an initial location, one successor list for each
location and action, ids inside the arena in increasing order, the number of moves, and a class for
every location where classes are attached. The first check that fails is reported.
-/
namespace RingLock

structure Snapshot (L : Type) where
  locations : List L
  initial : LocId
  actions : List Action
  successors : List (List (List LocId))
  moveCount : UInt64
  classes : Option (List ObservationClass)

namespace Snapshot

open Binary in
instance {L : Type} [Binary L] : Binary (Snapshot L) where
  encode s := encode s.locations ++ encode s.initial ++ encode s.actions ++ encode s.successors ++
    encode s.moveCount ++ encode s.classes
  decode := do
    let locations ← decode
    let initial ← decode
    let actions ← decode
    let successors ← decode
    let moveCount ← decode
    let classes ← decode
    return { locations, initial, actions, successors, moveCount, classes }

/-- Whether each id is smaller than the next one. -/
def increases : List LocId → Bool
  | a :: b :: rest => a.number < b.number && increases (b :: rest)
  | _ => true

/-- Checks one successor list: first that the ids lie inside the arena, then their order. -/
def checkTargets {L : Type} [Inspect L] (size : Nat) (source : L) (action : Action)
    (targets : List LocId) : Except Fault Unit :=
  match targets.find? fun id => size ≤ id.index with
  | some id => .error (.moveOutside (inspect source) (toString action) (toString id))
  | none => if increases targets then .ok () else .error (.snapshot "successor list is not sorted")

/-- Checks every successor list, by location and then by action. -/
def checkLists {L : Type} [Inspect L] (s : Snapshot L) : Except Fault Unit :=
  (s.locations.zip s.successors).forM fun (source, row) =>
    (s.actions.zip row).forM fun (action, targets) =>
      checkTargets s.locations.length source action targets

/-- The number of entries of the successor lists. -/
def entryCount {L : Type} (s : Snapshot L) : Nat :=
  SuccessorTable.total (s.successors.map fun row => SuccessorTable.total (row.map List.length))

/-- One row for each location, one list for each action. -/
def fits {L : Type} (s : Snapshot L) : Bool :=
  s.successors.length == s.locations.length &&
    s.successors.all fun row => row.length == s.actions.length

/-- A class for each location, where there are classes. -/
def covers {L : Type} (s : Snapshot L) : Bool :=
  s.classes.all fun classes => classes.length == s.locations.length

/-- Refuses a snapshot unless the condition holds. -/
def require (condition : Bool) (fault : Fault) : Except Fault Unit :=
  if condition then .ok () else .error fault

end Snapshot

namespace Arena

variable {L : Type} [DecidableEq L] [Hashable L]

/-- What is stored of an arena. -/
def snapshot (g : Arena L) : Snapshot L where
  locations := g.locations.toList
  initial := g.initial
  actions := g.actions.toList
  successors := (g.successors.map Array.toList).toList
  moveCount := UInt64.ofNat g.moveCount
  classes := g.classes.map Array.toList

/-- The arena of a snapshot, with its look-up tables made anew. -/
def ofSnapshot [Inspect L] (s : Snapshot L) : Except Fault (Arena L) := do
  let locations := Numbering.ofList s.locations
  Snapshot.require (locations.size == s.locations.length) (.snapshot "duplicate location")
  let actions := Numbering.ofList s.actions
  Snapshot.require (actions.size == s.actions.length) (.snapshot "duplicate action")
  Snapshot.require (s.initial.index < s.locations.length) (.initialNotListed (toString s.initial))
  Snapshot.require s.fits (.snapshot "successor table does not match locations x actions")
  s.checkLists
  Snapshot.require (s.entryCount == s.moveCount.toNat) (.snapshot "transition count mismatch")
  Snapshot.require s.covers (.snapshot "observation table does not cover every location")
  return {
    locations, actions
    initial := s.initial
    successors := (s.successors.map List.toArray).toArray
    moveCount := s.entryCount
    classes := s.classes.map List.toArray }

/-- The stored form of an arena. -/
def toBytes [Binary L] (g : Arena L) : List UInt8 := Binary.encode g.snapshot

/-- Reads an arena. What follows it is dropped. -/
def ofBytes [Inspect L] [Binary L] (bytes : List UInt8) : Except Fault (Arena L) :=
  match (Binary.read bytes : Except DecodeFault (Snapshot L)) with
  | .error fault => .error (.snapshot fault.message)
  | .ok s => ofSnapshot s

end Arena

end RingLock
