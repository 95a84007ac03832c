import RingLock.Coloring.Basic

/-!
# Listed colorings

Any alphabet, one entry a hole. Colorings are enumerated in lexicographic order, so hole 0 is the
most significant digit.
-/
namespace RingLock

structure Listed where
  colors : List UInt8
  deriving DecidableEq, Hashable

namespace Listed

/-- The lists of a given length over the first `colors` colors, lexicographic. Colors are bytes, so
the size of the alphabet counts modulo 256. -/
def tuples (colors : Nat) : (length : Nat) → List (List UInt8)
  | 0 => [[]]
  | length + 1 =>
    let rest := tuples colors length
    (List.range (colors % 256)).flatMap fun color => rest.map (UInt8.ofNat color :: ·)

/-- Turns the ring: the last `amount % holes` entries come to the front. There is no such turn when
the ring has fewer entries. -/
def rotate? (c : Listed) (amount holes : Nat) : Option Listed :=
  if holes = 0 then some c
  else
    let turn := amount % holes
    if turn ≤ c.colors.length then
      let kept := c.colors.length - turn
      some ⟨c.colors.drop kept ++ c.colors.take kept⟩
    else none

/-- Writes one entry of the ring. -/
def write? (colors : List UInt8) (hole : Nat) (color : UInt8) : Option (List UInt8) :=
  if hole < colors.length then some (colors.set hole color) else none

/-- Color `i` of the list goes to hole `i` of the hand, as far as both reach. -/
def recolor? (c : Listed) (hand : Hand) (recoloring : List UInt8) : Option Listed :=
  ((hand.holes.zip recoloring).foldlM (fun colors cell => write? colors cell.1.toNat cell.2)
    c.colors).map Listed.mk

instance : Coloring Listed where
  Recoloring := List UInt8
  all holes colors := (tuples colors holes).map Listed.mk
  recolorings size colors := tuples colors size
  rotate? := rotate?
  recolor? := recolor?
  isUniform c _ := neighboursAgree c.colors

instance : Ord Listed := ⟨fun a b => compare a.colors b.colors⟩

instance : ToString Listed := ⟨fun c => "[" ++ " ".intercalate (c.colors.map toString) ++ "]"⟩

instance : Inspect Listed := ⟨fun c => "TupleColoring(" ++ inspect c.colors ++ ")"⟩

@[simp] theorem tuples_zero (colors : Nat) : tuples colors 0 = [[]] := rfl

@[simp] theorem tuples_succ (colors length : Nat) :
    tuples colors (length + 1) = (List.range (colors % 256)).flatMap fun color =>
      (tuples colors length).map (UInt8.ofNat color :: ·) := rfl

theorem length_of_mem_tuples {colors length : Nat} {xs : List UInt8}
    (h : xs ∈ tuples colors length) : xs.length = length := by
  induction length generalizing xs with
  | zero => simp_all
  | succ length ih =>
    simp only [tuples_succ, List.mem_flatMap, List.mem_map] at h
    obtain ⟨color, -, ys, hys, rfl⟩ := h
    simp [ih hys]

@[simp] theorem rotate?_zero_holes (c : Listed) (amount : Nat) : c.rotate? amount 0 = some c := by
  simp [rotate?]

@[simp] theorem recolor?_empty (c : Listed) (recoloring : List UInt8) :
    c.recolor? .empty recoloring = some c := rfl

end Listed

end RingLock
