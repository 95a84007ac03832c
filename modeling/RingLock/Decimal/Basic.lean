/-!
# Decimals

A sign, a natural number and a power of ten. Zero has a sign too. A decimal is read as a float by
scaling its leading digits, as many as 64 bits hold, with one multiplication or division.
-/
namespace RingLock

structure Decimal where
  negative : Bool
  digits : Nat
  exponent : Int
  deriving DecidableEq

namespace Decimal

/-- The decimal of an integer. -/
def ofInt (n : Int) : Decimal := ⟨n < 0, n.natAbs, 0⟩

/-- Drops digits from the end until 64 bits hold the rest. Each digit that is dropped raises the
exponent by one. -/
def leading (digits : Nat) (exponent : Int) : UInt64 × Int :=
  if digits < UInt64.size then (UInt64.ofNat digits, exponent)
  else leading (digits / 10) (exponent + 1)
termination_by digits
decreasing_by simp only [UInt64.size] at *; omega

/-- The largest power of ten among the floats has this exponent. -/
def maxPower : Nat := 308

/-- A power of ten, rounded to the nearest float. -/
def power (exponent : Nat) : Float := Float.ofScientific 1 false exponent

/-- A product with a power of ten. -/
def scaleUp (x : Float) (exponent : Nat) : Float :=
  if exponent ≤ maxPower then x * power exponent
  else if x == 0 then x
  else 1 / 0

/-- A quotient by a power of ten, in several steps if the power is no float. -/
def scaleDown (x : Float) (exponent : Nat) : Float :=
  if exponent ≤ maxPower then x / power exponent
  else if x == 0 then x
  else scaleDown (x / power maxPower) (exponent - maxPower)
termination_by exponent
decreasing_by simp only [maxPower] at *; omega

/-- The float that a decimal is read as. -/
def toFloat (d : Decimal) : Float :=
  let (digits, exponent) := leading d.digits d.exponent
  let magnitude :=
    if 0 ≤ exponent then scaleUp digits.toFloat exponent.natAbs
    else scaleDown digits.toFloat exponent.natAbs
  if d.negative then -magnitude else magnitude

end Decimal

end RingLock
