import RingLock.Text.Inspect

/-!
# Labels

The numbers that an arena hands out: a place in its list of locations, an action, and a class of
locations that look alike.
-/
namespace RingLock

/-- The place of a location in the arena that issued it. -/
structure LocId where
  number : UInt32
  deriving DecidableEq, Hashable

/-- A move label. In a lock it is the amount by which the ring is turned. -/
structure Action where
  number : UInt16
  deriving DecidableEq, Hashable

/-- A class of locations that cannot be told apart. -/
structure ObservationClass where
  number : UInt32
  deriving DecidableEq

namespace LocId

def ofNat (n : Nat) : LocId := ⟨UInt32.ofNat n⟩

def index (id : LocId) : Nat := id.number.toNat

instance : ToString LocId := ⟨fun id => s!"Loc({id.number})"⟩

instance : Inspect LocId := ⟨fun id => s!"LocationId({id.number})"⟩

@[simp] theorem index_ofNat {n : Nat} (h : n < UInt32.size) : (ofNat n).index = n := by
  rw [ofNat, index, UInt32.toNat_ofNat']
  exact Nat.mod_eq_of_lt h

@[simp] theorem ofNat_index (id : LocId) : ofNat id.index = id := by
  simp [ofNat, index]

theorem index_lt (id : LocId) : id.index < UInt32.size := UInt32.toNat_lt_size _

end LocId

namespace Action

def ofNat (n : Nat) : Action := ⟨UInt16.ofNat n⟩

/-- The amount of a turn. -/
def amount (a : Action) : Nat := a.number.toNat

/-- The actions from 0 on. Their number counts modulo `2 ^ 16`. -/
def range (count : Nat) : List Action := (List.range (count % UInt16.size)).map ofNat

instance : ToString Action := ⟨fun a => toString a.number⟩

instance : Inspect Action := ⟨fun a => s!"Action({a.number})"⟩

@[simp] theorem amount_ofNat {n : Nat} (h : n < UInt16.size) : (ofNat n).amount = n := by
  rw [ofNat, amount, UInt16.toNat_ofNat']
  exact Nat.mod_eq_of_lt h

@[simp] theorem ofNat_amount (a : Action) : ofNat a.amount = a := by
  simp [ofNat, amount]

end Action

namespace ObservationClass

instance : ToString ObservationClass := ⟨fun c => s!"Obs({c.number})"⟩

instance : Inspect ObservationClass := ⟨fun c => s!"ObservationId({c.number})"⟩

end ObservationClass

end RingLock
