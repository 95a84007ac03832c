import RingLock.Decimal.Basic

/-!
# Shortest decimals

The shortest decimal that is read as a given float, and the nearest one where several are as short.
Around every float lies a span of reals that round to it. The grids of decimals are tried from the
coarsest on. If any point of a grid lies in the span, so does one of the two neighbours of the
float, for the span contains the float and has no gaps. So only these two are tried on each grid.

All comparisons are exact: the ends of the span are natural multiples of one fraction.
-/
namespace RingLock.Decimal

/-- The reals that round to a positive float, in multiples of `1 / unit`. -/
structure Span where
  low : Nat
  value : Nat
  high : Nat
  unit : Nat
  /-- The ends round to the float as well. -/
  closed : Bool
  deriving DecidableEq

namespace Span

/-- The span of the float with the given fields. It reaches halfway to both neighbours, and at a
power of two the lower one is only half as far away. A tie rounds to the float with the even
fraction. -/
def ofFields (fraction field : Nat) : Span :=
  let implicit := if field = 0 then 0 else 1 <<< 52
  let quarters := 4 * (implicit + fraction)
  let narrow := fraction = 0 ∧ 1 < field
  let scale := 1 <<< (max field 1 - 1077)
  { low := (quarters - if narrow then 1 else 2) * scale
    value := quarters * scale
    high := (quarters + 2) * scale
    unit := 1 <<< (1077 - max field 1)
    closed := fraction % 2 = 0 }

/-- Whether a fraction lies in the span. -/
def Contains (s : Span) (numerator denominator : Nat) : Prop :=
  if s.closed then
    s.low * denominator ≤ numerator * s.unit ∧ numerator * s.unit ≤ s.high * denominator
  else s.low * denominator < numerator * s.unit ∧ numerator * s.unit < s.high * denominator

instance (s : Span) (numerator denominator : Nat) : Decidable (s.Contains numerator denominator) :=
  inferInstanceAs (Decidable (ite _ _ _))

/-- The multiple of `step / parts` in the span, if there is one: of two the nearer to the float, and
of two at one distance the even one. -/
def nearest? (s : Span) (step parts : Nat) : Option Nat :=
  let place := s.value * parts
  let width := step * s.unit
  let below := place / width
  let lower := s.Contains (below * step) parts
  let upper := s.Contains ((below + 1) * step) parts
  if lower ∧ upper then
    match compare (2 * (place % width)) width with
    | .lt => some below
    | .gt => some (below + 1)
    | .eq => some (if below % 2 = 0 then below else below + 1)
  else if lower then some below
  else if upper then some (below + 1)
  else none

/-- The powers of ten whose grids are tried. The first is larger than every float, and the last is
smaller than every distance between two floats. -/
def grids : List Int := (List.range 634).map fun i => 309 - Int.ofNat i

/-- The digits and the power of ten of the shortest decimal in the span. -/
def shortest? (s : Span) : Option (Nat × Int) :=
  grids.findSome? fun grid =>
    (s.nearest? (Nat.pow 10 grid.toNat) (Nat.pow 10 (-grid).toNat)).map fun n => (n, grid)

end Span

/-- The shortest decimal of a float. What is not finite has none. -/
def ofFloat? (x : Float) : Option Decimal :=
  let bits := x.toBits
  let negative := bits >>> 63 == 1
  let field := ((bits >>> 52) &&& 0x7ff).toNat
  let fraction := (bits &&& 0xfffffffffffff).toNat
  if field = 0x7ff then none
  else if field = 0 ∧ fraction = 0 then some ⟨negative, 0, 0⟩
  else (Span.ofFields fraction field).shortest?.map fun (n, grid) => ⟨negative, n, grid⟩

end RingLock.Decimal
