import RingLock.Decimal.Shortest

/-!
# Decimal text

How a decimal is written. Within a range of magnitudes all places are written out, with at least one
on each side of the point. Outside of it the first digit stands before the point and an exponent
with its sign follows. There the point is left out if nothing would follow it.
-/
namespace RingLock.Decimal

/-- The least and the greatest exponent of the leading digit for which all places are written. -/
structure Layout where
  plainFrom : Int
  plainTo : Int
  deriving DecidableEq

namespace Layout

def zeros (count : Nat) : List Char := List.replicate count '0'

/-- All places. `lead` is the exponent of the first digit. -/
def plain (digits : List Char) (lead : Int) : List Char :=
  if lead < 0 then '0' :: '.' :: (zeros (lead.natAbs - 1) ++ digits)
  else
    let whole := lead.toNat + 1
    if digits.length ≤ whole then digits ++ zeros (whole - digits.length) ++ ['.', '0']
    else digits.take whole ++ '.' :: digits.drop whole

/-- The digits after the first one, behind a point. -/
def part : List Char → List Char
  | [] => []
  | digits => '.' :: digits

/-- The first digit, the others behind a point, and the exponent. -/
def scientific (digits : List Char) (lead : Int) : List Char :=
  digits.take 1 ++ part (digits.drop 1) ++ 'e' :: (if lead < 0 then '-' else '+') ::
    Nat.toDigits 10 lead.natAbs

/-- The text of a decimal. -/
def write (layout : Layout) (d : Decimal) : List Char :=
  let digits := Nat.toDigits 10 d.digits
  let lead := d.exponent + Int.ofNat digits.length - 1
  let magnitude :=
    if layout.plainFrom ≤ lead ∧ lead ≤ layout.plainTo then plain digits lead
    else scientific digits lead
  if d.negative then '-' :: magnitude else magnitude

end Layout

end RingLock.Decimal
