import Brisk.Number.Binary

/-! # Shortest decimals

Of all decimals that read back as a given double, the one with the fewest digits is chosen, and of
those with the fewest digits the one nearest to the double. Of two that are equally near it is the
larger.

The decimals with a last digit of weight `10 ^ k` form a grid. The numbers that read back as the
double form an interval around it. If any point of the grid lies in the interval, then so does one
of the two points next to the double, so for each grid only these are tried, and the grids are tried
from the coarsest on.
-/

namespace Brisk

/-- The number `digits · 10 ^ exponent`. -/
structure Decimal where
  digits : Nat
  exponent : Int
  deriving DecidableEq, Repr

namespace Decimal

/-- The number of decimal digits of a positive number. -/
def digitCount (n : Nat) : Nat := (Nat.toDigits 10 n).length

/-- The numbers that round to a double, in fourths of the double's unit in the last place: the
double itself, the two ends, and whether the ends belong to it. -/
structure Interval where
  low : Nat
  middle : Nat
  high : Nat
  closed : Bool
  deriving DecidableEq, Repr

/-- The numbers that round to `m · 2 ^ q`. Below a power of two doubles lie twice as close, except
among the smallest ones. Ties go to the even mantissa, so the ends belong to the interval of an even
one. -/
def Interval.around (m : Nat) (q : Int) : Interval where
  low := 4 * m - (if m = Nat.pow 2 52 ∧ Binary.leastExponent < q then 1 else 2)
  middle := 4 * m
  high := 4 * m + 2
  closed := m % 2 = 0

/-- Whether the number `x / scale`, in the interval's units, lies in the interval. -/
def Interval.contains (i : Interval) (scale x : Nat) : Bool :=
  if i.closed then i.low * scale ≤ x && x ≤ i.high * scale
  else i.low * scale < x && x < i.high * scale

/-- The fraction that a unit of `2 ^ q` is of `10 ^ k`, as a numerator and a denominator. -/
def unitRatio (q k : Int) : Nat × Nat :=
  (Nat.pow 2 q.toNat * Nat.pow 10 (-k).toNat, Nat.pow 2 (-q).toNat * Nat.pow 10 k.toNat)

/-- The point of the grid `10 ^ k` that lies in the interval and next to its middle, when the
interval counts in units of `2 ^ q`. -/
def Interval.onGrid? (i : Interval) (q k : Int) : Option Decimal :=
  let (num, den) := unitRatio q k
  let below := i.middle * num / den
  let above := below + 1
  -- A point `d` of the grid lies at `d · den / num` units.
  let lower := i.contains num (below * den)
  let upper := i.contains num (above * den)
  if lower && upper then
    let toLower := i.middle * num - below * den
    let toUpper := above * den - i.middle * num
    some ⟨if toLower < toUpper then below else above, k⟩
  else if lower then some ⟨below, k⟩
  else if upper then some ⟨above, k⟩
  else none

/-- The exponent of the leading decimal digit of `m · 2 ^ q`, for a double other than zero. -/
def leadingExponent (m : Nat) (q : Int) : Int :=
  -- No double other than zero is below `10 ^ (-324)`.
  let (num, den) := unitRatio q (-324)
  (digitCount (m * num / den) : Int) - 325

/-- The shortest decimal that reads back as the double `m · 2 ^ q`, which is not zero. The first
grid is coarser than the leading digit, since a double just below a power of ten may read back from
that power. Seventeen digits always suffice. -/
def shortest (m : Nat) (q : Int) : Decimal :=
  let interval := Interval.around m q
  let coarsest := leadingExponent m q + 1
  ((List.range 18).findSome? fun (n : Nat) => interval.onGrid? (q - 2) (coarsest - n)).getD ⟨0, 0⟩

end Decimal

end Brisk
