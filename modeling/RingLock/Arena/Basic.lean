import RingLock.Arena.Numbering
import RingLock.Arena.Region
import RingLock.Fault

/-!
# Arenas

A finite labelled transition system with an initial location. Locations and actions are numbered in
the order of their first mention. For each location and each action there is one list of successor
ids, increasing and without repetition. It may be empty. An arena can carry a class for every
location.

`build` refuses an initial location or a move that mentions what is not listed. Look-ups by id are
`none` outside the arena.
-/
namespace RingLock

/-- For every location, for every action, the successors. -/
abbrev SuccessorTable := Array (Array (List LocId))

structure Arena (L : Type) [DecidableEq L] [Hashable L] where
  locations : Numbering L
  initial : LocId
  actions : Numbering Action
  successors : SuccessorTable
  /-- The number of distinct moves. -/
  moveCount : Nat
  /-- The class of each location, where classes are attached. -/
  classes : Option (Array ObservationClass)

namespace SuccessorTable

/-- No successors anywhere. -/
def blank (locations actions : Nat) : SuccessorTable :=
  Array.replicate locations (Array.replicate actions [])

/-- Notes one successor. -/
def note (table : SuccessorTable) (source action : Nat) (target : LocId) : SuccessorTable :=
  table.modify source fun row => row.modify action (target :: ·)

/-- Drops every entry that equals the next one. -/
def dropRepeats : List LocId → List LocId
  | a :: b :: rest => if a = b then dropRepeats (b :: rest) else a :: dropRepeats (b :: rest)
  | short => short

/-- The entries in increasing order, each once. -/
def tidy (ids : List LocId) : List LocId :=
  dropRepeats (ids.mergeSort fun a b => a.number ≤ b.number)

/-- The table of a list of moves: source, action and target by number. -/
def ofMoves (locations actions : Nat) (moves : List (Nat × Nat × LocId)) : SuccessorTable :=
  let noted := moves.foldl (fun table m => table.note m.1 m.2.1 m.2.2) (blank locations actions)
  noted.map fun row => row.map tidy

/-- The sum of some numbers. -/
def total : List Nat → Nat
  | [] => 0
  | n :: rest => n + total rest

/-- The number of entries. -/
def count (table : SuccessorTable) : Nat :=
  total (table.toList.map fun row => total (row.toList.map List.length))

end SuccessorTable

namespace Arena

variable {L : Type} [DecidableEq L] [Hashable L]

/-- The numbers of a move, or the fault of mentioning what is not listed. -/
def resolve [Inspect L] (locations : Numbering L) (actions : Numbering Action)
    (move : L × Action × L) : Except Fault (Nat × Nat × LocId) :=
  match locations.find? move.1, actions.find? move.2.1, locations.find? move.2.2 with
  | some source, some action, some target => .ok (source, action, .ofNat target)
  | _, _, _ =>
    .error (.moveOutside (inspect move.1) (toString move.2.1) (inspect move.2.2))

/-- The arena of given locations, actions and moves. Repetitions collapse. The initial location is
checked first, then the moves in their order. -/
def build [Inspect L] (locations : List L) (initial : L) (actions : List Action)
    (moves : List (L × Action × L)) : Except Fault (Arena L) := do
  let locations := Numbering.ofList locations
  let actions := Numbering.ofList actions
  match locations.find? initial with
  | none => .error (.initialNotListed (inspect initial))
  | some first =>
    let moves ← moves.mapM (resolve locations actions)
    let successors := SuccessorTable.ofMoves locations.size actions.size moves
    return {
      locations, actions, successors
      initial := .ofNat first
      moveCount := successors.count
      classes := none }

/-- The number of locations. -/
def size (g : Arena L) : Nat := g.locations.size

def isEmpty (g : Arena L) : Bool := g.size == 0

/-- The location of an id. -/
def location? (g : Arena L) (id : LocId) : Option L := g.locations.get? id.index

/-- The id of a location. -/
def idOf? (g : Arena L) (l : L) : Option LocId := (g.locations.find? l).map LocId.ofNat

/-- The initial location. -/
def initialLocation? (g : Arena L) : Option L := g.location? g.initial

/-- The successor lists of a location, one an action. -/
def row (g : Arena L) (id : LocId) : Array (List LocId) := g.successors[id.index]?.getD #[]

/-- The successors under the action at a place of the list of actions. -/
def successorsAt? (g : Arena L) (id : LocId) (place : Nat) : Option (List LocId) :=
  (g.successors[id.index]?).bind fun row => row[place]?

/-- The successors under an action. An action that is not listed has none. -/
def successors? (g : Arena L) (id : LocId) (action : Action) : Option (List LocId) :=
  match g.actions.find? action with
  | none => some []
  | some place => g.successorsAt? id place

/-- Whether a move is one of the arena's. -/
def hasMove (g : Arena L) (source : L) (action : Action) (target : L) : Bool :=
  match g.idOf? source, g.idOf? target with
  | some source, some target => ((g.successors? source action).getD []).contains target
  | _, _ => false

/-- Every move once, by source, then by action, then by target. -/
def moves (g : Arena L) : List (L × Action × L) :=
  (g.locations.toList.zip g.successors.toList).flatMap fun (source, row) =>
    (g.actions.toList.zip row.toList).flatMap fun (action, targets) =>
      (targets.filterMap g.location?).map fun target => (source, action, target)

/-- Attaches classes. Every location has to have one. -/
def observe [Inspect L] (g : Arena L) (classOf : L → Option ObservationClass) :
    Except Fault (Arena L) := do
  let classes ← g.locations.toList.mapM fun l =>
    match classOf l with
    | some c => .ok c
    | none => .error (.unobserved (inspect l))
  return { g with classes := some classes.toArray }

def hasClasses (g : Arena L) : Bool := g.classes.isSome

/-- The class of a location. -/
def class? (g : Arena L) (l : L) : Option ObservationClass := do
  let id ← g.idOf? l
  let classes ← g.classes
  classes[id.index]?

/-- The locations that satisfy a predicate. -/
def regionWhere (g : Arena L) (p : L → Bool) : Region :=
  Region.ofFn g.size fun id => (g.location? id).any p

/-- The given locations. What is not listed is passed over. -/
def regionOf? (g : Arena L) (ls : List L) : Option Region :=
  Region.ofIds? g.size (ls.filterMap g.idOf?)

/-- The locations of a region, by id. There are none if the region reaches past the arena. -/
def members? (g : Arena L) (r : Region) : Option (List L) := r.toList.mapM g.location?

end Arena

end RingLock
