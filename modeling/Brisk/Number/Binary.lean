/-! # Binary floating point, exactly

A finite double is a sign, a natural mantissa and a power of two. Working on these parts in exact
arithmetic, this module rounds a quotient of natural numbers to the nearest double, takes remainders
and cuts off fractions.
-/

namespace Brisk.Binary

/-- What a double stands for. -/
inductive Parts where
  | nan
  | infinite (negative : Bool)
  /-- The number `± mantissa · 2 ^ exponent`. -/
  | finite (negative : Bool) (mantissa : Nat) (exponent : Int)
  deriving DecidableEq, Repr

/-- The exponent of the smallest positive double, which is a power of two. -/
def leastExponent : Int := -1074

/-- Takes a double apart. -/
def parts (x : Float) : Parts :=
  let bits := x.toBits.toNat
  let negative := bits / Nat.pow 2 63 == 1
  let biased := bits / Nat.pow 2 52 % Nat.pow 2 11
  let fraction := bits % Nat.pow 2 52
  if biased = 2047 then
    if fraction = 0 then .infinite negative else .nan
  else if biased = 0 then .finite negative fraction leastExponent
  else .finite negative (Nat.pow 2 52 + fraction) (leastExponent + (biased - 1 : Nat))

/-- The double with a given sign whose remaining bits are given as a number. -/
def ofMagnitude (negative : Bool) (bits : Nat) : Float :=
  Float.ofBits (UInt64.ofNat ((if negative then Nat.pow 2 63 else 0) + bits))

/-- The bits of infinity, the sign aside. Those of finite numbers are below it. -/
def infinityBits : Nat := 2047 * Nat.pow 2 52

/-- The quotient `num / den` rounded to the nearest integer, a half to the even one. -/
def divideToEven (num den : Nat) : Nat :=
  let quotient := num / den
  let twice := 2 * (num % den)
  if twice < den then quotient
  else if den < twice then quotient + 1
  else quotient + quotient % 2

/-- The fraction `num / den · 2 ^ (-q)`, as a numerator and a denominator. -/
def scaled (num den : Nat) (q : Int) : Nat × Nat :=
  if 0 ≤ q then (num, den * Nat.pow 2 q.toNat) else (num * Nat.pow 2 (-q).toNat, den)

/-- The power of two in units of which a double near `num / den` counts: the quotient then has 53
binary digits, or fewer where the smallest doubles stop it. -/
def unitExponent (num den : Nat) : Int :=
  let estimate : Int := (num.log2 : Int) - den.log2 - 52
  let (n, d) := scaled num den estimate
  max leastExponent (if n < d * Nat.pow 2 52 then estimate - 1 else estimate)

/-- The double nearest to `num / den`, a tie to the even mantissa, and infinity for quotients beyond
the largest double. -/
def nearest (negative : Bool) (num den : Nat) : Float :=
  if num = 0 then ofMagnitude negative 0
  else
    let q := unitExponent num den
    let (n, d) := scaled num den q
    -- A mantissa rounded up to the next power of two carries into the exponent by itself.
    let bits := (q - leastExponent).toNat * Nat.pow 2 52 + divideToEven n d
    ofMagnitude negative (min bits infinityBits)

/-- The number `± m · 2 ^ q` as a double. -/
def ofParts (negative : Bool) (m : Nat) (q : Int) : Float :=
  let (n, d) := scaled m 1 (-q)
  nearest negative n d

/-- The remainder of the division of `x` by `y` with the quotient cut off toward zero. It is exact
and takes the sign of `x`. -/
def remainder (x y : Float) : Float :=
  match parts x, parts y with
  | .finite negative m p, .finite _ n q =>
    if n = 0 then 0 / 0
    else
      let least := min p q
      let a := m * Nat.pow 2 (p - least).toNat
      let b := n * Nat.pow 2 (q - least).toNat
      ofParts negative (a % b) least
  | .finite .., .infinite _ => x
  | _, _ => 0 / 0

/-- The integer that is left when the fraction is cut off. Infinities and not-a-number have none. -/
def truncate? (x : Float) : Option Int :=
  match parts x with
  | .finite negative m q =>
    let n : Nat := if 0 ≤ q then m * Nat.pow 2 q.toNat else m / Nat.pow 2 (-q).toNat
    some (if negative then -(n : Int) else n)
  | _ => none

end Brisk.Binary
