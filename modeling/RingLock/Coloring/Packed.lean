import RingLock.Coloring.Listed

/-!
# Packed colorings

Two colors, one bit a hole: bit `i` of a 32-bit word is the color of hole `i`. A shift by 32 or
more places is out of range, so rings of more than 32 holes cannot be read or turned.
-/
namespace RingLock

structure Packed where
  bits : UInt32
  deriving DecidableEq, Hashable

namespace Packed

/-- A shift to the left by fewer places than the word is wide. -/
def shiftLeft? (word : UInt32) (places : Nat) : Option UInt32 :=
  if places < 32 then some (word <<< UInt32.ofNat places) else none

/-- A shift to the right by fewer places than the word is wide. -/
def shiftRight? (word : UInt32) (places : Nat) : Option UInt32 :=
  if places < 32 then some (word >>> UInt32.ofNat places) else none

/-- A one for every hole of the ring. From 32 holes on the word is full. -/
def mask (holes : Nat) : UInt32 :=
  if holes < 32 then (1 <<< UInt32.ofNat holes) - 1 else 0xffffffff

/-- The color of a hole. -/
def color? (c : Packed) (hole : Nat) : Option UInt8 :=
  (shiftRight? c.bits hole).map fun word => (word &&& 1).toUInt8

/-- One color a hole, for as many holes as a word has bits. -/
def toListed? (c : Packed) (holes : Nat) : Option Listed :=
  if holes ≤ 32 then ((List.range holes).mapM c.color?).map Listed.mk else none

/-- Turns the ring: what is shifted out at the top comes in again at the bottom. -/
def rotate? (c : Packed) (amount holes : Nat) : Option Packed :=
  if holes = 0 then some c
  else if amount % holes = 0 then some c
  else do
    let up ← shiftLeft? c.bits (amount % holes)
    let down ← shiftRight? c.bits (holes - amount % holes)
    return ⟨mask holes &&& (up ||| down)⟩

/-- Writes bit `place` of `word` into hole `hole`. -/
def write? (bits word : UInt32) (hole place : Nat) : Option UInt32 := do
  let source ← shiftLeft? 1 place
  let target ← shiftLeft? 1 hole
  return if word &&& source ≠ 0 then bits ||| target else bits &&& ~~~target

/-- Bit `i` of `word` is the new color of hole `i` of the hand. -/
def recolor? (c : Packed) (hand : Hand) (word : UInt32) : Option Packed :=
  (hand.holes.zipIdx.foldlM (fun bits cell => write? bits word cell.1.toNat cell.2)
    c.bits).map Packed.mk

/-- All bits of the ring are equal. -/
def isUniform (c : Packed) (holes : Nat) : Bool := c.bits == 0 || c.bits == mask holes

/-- The words from 0 up to the mask. -/
def words (holes : Nat) : List UInt32 :=
  (List.range ((mask holes).toNat + 1)).map UInt32.ofNat

instance : Coloring Packed where
  Recoloring := UInt32
  all holes _ := (words holes).map Packed.mk
  recolorings size _ := words size
  rotate? := rotate?
  recolor? := recolor?
  isUniform := isUniform

instance : Ord Packed := ⟨fun a b => compare a.bits b.bits⟩

instance : ToString Packed := ⟨fun c => "0b" ++ String.ofList (Nat.toDigits 2 c.bits.toNat)⟩

instance : Inspect Packed := ⟨fun c => "BitColoring(" ++ inspect c.bits ++ ")"⟩

@[simp] theorem rotate?_zero_holes (c : Packed) (amount : Nat) : c.rotate? amount 0 = some c := by
  simp [rotate?]

@[simp] theorem recolor?_empty (c : Packed) (word : UInt32) :
    c.recolor? .empty word = some c := rfl

end Packed

end RingLock
