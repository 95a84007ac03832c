import RingLock.Text.Inspect

/-!
# Hands

A hand is a list of holes chosen for recoloring. The place of a hole in the list matters: color `i`
of a recoloring goes to hole `i` of the hand. The empty hand means that no recoloring is pending.
Full hands are enumerated in increasing lexicographic order.
-/
namespace RingLock

structure Hand where
  holes : List UInt8
  deriving DecidableEq, Hashable

namespace Hand

/-- No recoloring is pending. -/
def empty : Hand := ⟨[]⟩

instance : Inhabited Hand := ⟨empty⟩

def size (h : Hand) : Nat := h.holes.length

def isEmpty (h : Hand) : Bool := h.holes.isEmpty

def contains (h : Hand) (hole : UInt8) : Bool := h.holes.contains hole

/-- Hands are ordered as lists, hole by hole. -/
instance : Ord Hand := ⟨fun a b => compare a.holes b.holes⟩

instance : ToString Hand := ⟨fun h => "(" ++ ", ".intercalate (h.holes.map toString) ++ ")"⟩

instance : Inspect Hand := ⟨fun h => "Selection(" ++ inspect h.holes ++ ")"⟩

/-- The increasing lists of `size` holes, none below `first`, of a ring of `holes`. A list that is
to hold `size` more holes after its first one starts below `holes - size`, or it could not be
filled. -/
def increasingFrom (holes : Nat) : (size first : Nat) → List (List UInt8)
  | 0, _ => [[]]
  | size + 1, first =>
    (List.range' first (holes - size - first)).flatMap fun hole =>
      (increasingFrom holes size (hole + 1)).map (UInt8.ofNat hole :: ·)

/-- The full hands of a ring: every choice of `size` holes, increasing. -/
def full (holes size : Nat) : List Hand :=
  if holes < size then [] else (increasingFrom holes size 0).map Hand.mk

/-- The hands that may await recoloring: the full ones, then the empty one. -/
def options (holes size : Nat) : List Hand := full holes size ++ [empty]

@[simp] theorem size_empty : empty.size = 0 := rfl

@[simp] theorem isEmpty_iff (h : Hand) : h.isEmpty ↔ h = empty := by
  cases h with | mk holes => cases holes <;> simp [isEmpty, empty]

@[simp] theorem full_of_lt {holes size : Nat} (h : holes < size) : full holes size = [] := by
  simp [full, h]

/-- Every list of the enumeration holds as many holes as were asked for. -/
theorem length_of_mem_increasingFrom {holes size first : Nat} {xs : List UInt8}
    (h : xs ∈ increasingFrom holes size first) : xs.length = size := by
  induction size generalizing first xs with
  | zero => simp_all [increasingFrom]
  | succ size ih =>
    simp only [increasingFrom, List.mem_flatMap, List.mem_map] at h
    obtain ⟨hole, -, ys, hys, rfl⟩ := h
    simp [ih hys]

theorem size_of_mem_full {holes size : Nat} {h : Hand} (hh : h ∈ full holes size) :
    h.size = size := by
  simp only [full] at hh
  split at hh
  · simp at hh
  · obtain ⟨xs, hxs, rfl⟩ := List.mem_map.1 hh
    exact length_of_mem_increasingFrom hxs

theorem mem_options {holes size : Nat} {h : Hand} :
    h ∈ options holes size ↔ h ∈ full holes size ∨ h = empty := by
  simp [options]

end Hand

end RingLock
