import RingLock.Fault

/-!
# Configurations

A lock is described by its number of holes, the size of the hand, the number of colors and a seed.
The sizes are checked before anything of exponential size is built.
-/
namespace RingLock

structure Config where
  /-- Positions on the ring. -/
  holes : UInt64
  /-- Positions that are selected and recolored in one turn. -/
  hand : UInt64
  /-- Size of the alphabet. -/
  colors : UInt64
  /-- Fixes the initial coloring and every later draw. -/
  seed : UInt64
  deriving DecidableEq

namespace Config

/-- The largest ring that is expanded. -/
def maxHoles : UInt64 := 16

/-- The largest alphabet that is expanded. -/
def maxColors : UInt64 := 8

/-- Four holes, a hand of two, two colors. -/
def standard : Config := ⟨4, 2, 2, 42⟩

instance : Inhabited Config := ⟨standard⟩

/-- A two-color lock with the standard seed. -/
def twoColor (holes hand : UInt64) : Config := { standard with holes, hand }

/-- A lock over any alphabet with the standard seed. -/
def manyColor (holes hand colors : UInt64) : Config := { standard with holes, hand, colors }

/-- Checks the sizes. The hand comes first, so that a hand larger than the ring is always reported
as such, whatever else is wrong. -/
def check (c : Config) : Except Fault Unit :=
  if c.holes < c.hand then .error (.handTooLarge c.hand c.holes)
  else if c.hand = 0 then .error .emptyHand
  else if c.holes = 0 ∨ maxHoles < c.holes then .error (.holeCount c.holes maxHoles)
  else if c.colors < 2 ∨ maxColors < c.colors then .error (.colorCount c.colors maxColors)
  else .ok ()

/-- A power of machine words, `none` when it needs more than 64 bits. The exponent counts modulo
`2 ^ 32`. From exponent 64 on only the bases 0 and 1 stay in range, so no large power is formed. -/
def power? (base exponent : UInt64) : Option UInt64 :=
  let e := exponent.toNat % UInt32.size
  if base ≤ 1 then some (if e = 0 then 1 else base)
  else if 64 ≤ e then none
  else
    let value := Nat.pow base.toNat e
    if value < UInt64.size then some (UInt64.ofNat value) else none

/-- The number of colorings of the whole ring. -/
def ringColorings? (c : Config) : Option UInt64 := power? c.colors c.holes

/-- The number of recolorings of a full hand. -/
def handRecolorings? (c : Config) : Option UInt64 := power? c.colors c.hand

/-- The check accepts exactly the documented sizes. -/
theorem check_eq_ok_iff (c : Config) :
    c.check = .ok () ↔
      1 ≤ c.hand ∧ c.hand ≤ c.holes ∧ c.holes ≤ maxHoles ∧ 2 ≤ c.colors ∧ c.colors ≤ maxColors := by
  simp only [check, UInt64.lt_iff_toNat_lt, UInt64.le_iff_toNat_le, ← UInt64.toNat_inj]
  split
  · simp; omega
  split
  · simp_all
  split
  · simp_all; omega
  split
  · simp_all; omega
  · simp_all; omega

end Config

end RingLock
