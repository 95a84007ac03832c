import RingLock.Arena.Label
import RingLock.Capacity

/-!
# Regions

A region is a set of location ids below a bound: one flag for every id, with the
number of members beside it. The stored number is kept in step by every operation here. A region
that was read from outside may store any number, so `insert?` and `erase?` check that it stays in
range.
-/
namespace RingLock

structure Region where
  members : Array Bool
  count : UInt64
  deriving DecidableEq

namespace Region

/-- The bound of the ids. -/
def bound (r : Region) : Nat := r.members.size

/-- The stored number of members. -/
def size (r : Region) : Nat := r.count.toNat

def isEmpty (r : Region) : Bool := r.count == 0

def contains (r : Region) (id : LocId) : Bool := r.members[id.index]?.getD false

/-- The members, increasing. -/
def toList (r : Region) : List LocId :=
  ((List.range r.bound).filter fun i => r.members[i]?.getD false).map LocId.ofNat

/-- The region of given flags, with their number. -/
def ofMembers (members : Array Bool) : Region := ⟨members, UInt64.ofNat (members.count true)⟩

/-- The ids that satisfy a predicate. Ids have 32 bits, so the bound counts modulo `2 ^ 32`. -/
def ofFn (bound : Nat) (p : LocId → Bool) : Region :=
  ofMembers (Array.ofFn fun i : Fin (bound % UInt32.size) => p (LocId.ofNat i))

/-- The flags of a region are stored in one piece. -/
def allocate? (bound : Nat) (flag : Bool) (count : UInt64) : Option Region :=
  if bound < capacity then some ⟨Array.replicate bound flag, count⟩ else none

def empty? (bound : Nat) : Option Region := allocate? bound false 0

def full? (bound : Nat) : Option Region := allocate? bound true (UInt64.ofNat bound)

/-- Adds an id below the bound, and tells whether it is new. -/
def insert? (r : Region) (id : LocId) : Option (Region × Bool) :=
  match r.members[id.index]? with
  | some false =>
    if r.size + 1 < UInt64.size then
      some (⟨r.members.setIfInBounds id.index true, r.count + 1⟩, true)
    else none
  | _ => some (r, false)

/-- Removes an id, and tells whether it was there. -/
def erase? (r : Region) (id : LocId) : Option (Region × Bool) :=
  match r.members[id.index]? with
  | some true =>
    if 0 < r.size then some (⟨r.members.setIfInBounds id.index false, r.count - 1⟩, true)
    else none
  | _ => some (r, false)

/-- The ids of a list. Those past the bound are passed over. -/
def ofIds? (bound : Nat) (ids : List LocId) : Option Region := do
  let r ← empty? bound
  ids.foldlM (fun r id => (r.insert? id).map Prod.fst) r

/-- Whether every member is one of the other region, whatever the bounds. -/
def isSubset (r s : Region) : Bool := r.toList.all s.contains

/-- The common members, below the first bound. -/
def inter (r s : Region) : Region := ofFn r.bound fun id => r.contains id && s.contains id

/-- The members of either, below the larger bound. -/
def union (r s : Region) : Region :=
  ofFn (max r.bound s.bound) fun id => r.contains id || s.contains id

/-- The ids below the bound that are no members. -/
def complement (r : Region) : Region := ofFn r.bound fun id => !r.contains id

@[simp] theorem bound_ofFn (bound : Nat) (p : LocId → Bool) :
    (ofFn bound p).bound = bound % UInt32.size := by
  simp [ofFn, ofMembers, Region.bound]

/-- Membership in a region made from a predicate. -/
theorem contains_ofFn {bound : Nat} (h : bound < UInt32.size) (p : LocId → Bool) (id : LocId) :
    (ofFn bound p).contains id = (decide (id.index < bound) && p id) := by
  have same : bound % UInt32.size = bound := Nat.mod_eq_of_lt h
  simp only [contains, ofFn, ofMembers, Array.getElem?_ofFn, same]
  by_cases inside : id.index < bound
  · rw [dif_pos inside]
    simp [inside]
  · rw [dif_neg inside]
    simp [inside]

theorem mem_toList {r : Region} (h : r.bound ≤ UInt32.size) {id : LocId} :
    id ∈ r.toList ↔ r.contains id := by
  simp only [toList, contains, List.mem_map, List.mem_filter, List.mem_range]
  constructor
  · rintro ⟨i, ⟨hi, member⟩, rfl⟩
    rw [LocId.index_ofNat (by omega)]
    exact member
  · intro member
    refine ⟨id.index, ⟨?_, member⟩, LocId.ofNat_index id⟩
    simp only [bound]
    by_cases inside : id.index < r.members.size
    · exact inside
    · simp [Array.getElem?_eq_none (Nat.le_of_not_lt inside)] at member

@[simp] theorem contains_inter {r s : Region} (h : r.bound < UInt32.size) (id : LocId) :
    (r.inter s).contains id = (r.contains id && s.contains id) := by
  rw [inter, contains_ofFn h]
  by_cases inside : id.index < r.members.size
  · simp [bound, inside]
  · simp [contains, bound, inside]

end Region

end RingLock
