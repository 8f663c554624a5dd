import Brisk.Number.Integer
import Brisk.Number.Shortest

/-! # Decimal text of doubles

Doubles are read from decimal text, rounded to the nearest, and written with the fewest digits that
read back. How they are written, with or without an exponent, is a matter of style: as values they
never have an exponent, and as literals they always show that they are no integers.
-/

namespace Brisk.Decimal

/-- How a number is laid out. -/
structure Style where
  /-- What is written behind a whole number that has no exponent. -/
  wholeMark : List Char
  /-- Whether a number is written without an exponent, by the exponent of its leading digit. -/
  positional : Int → Bool

/-- Values are written without an exponent, and whole ones like integers. -/
def Style.value : Style := ⟨[], fun _ => true⟩

/-- Literals have a point or an exponent. The exponent is used below `10 ^ (-4)` and from `10 ^ 16`
on. -/
def Style.literal : Style := ⟨['.', '0'], fun lead => -4 ≤ lead && lead < 16⟩

/-- The digits `ds` with the last one at weight `10 ^ k`, without an exponent. -/
def positional (style : Style) (ds : List Char) (k : Int) : List Char :=
  if 0 ≤ k then ds ++ List.replicate k.toNat '0' ++ style.wholeMark
  else
    let places := (-k).toNat
    if places < ds.length then
      ds.take (ds.length - places) ++ '.' :: ds.drop (ds.length - places)
    else ['0', '.'] ++ List.replicate (places - ds.length) '0' ++ ds

/-- The digits `ds` with the first one at weight `10 ^ lead`, with an exponent. -/
def scientific (ds : List Char) (lead : Int) : List Char :=
  let fraction := ds.drop 1
  ds.take 1 ++ (if fraction.isEmpty then [] else '.' :: fraction) ++ 'e' :: (toString lead).toList

/-- The magnitude `m · 2 ^ q` of a double. -/
def magnitude (style : Style) (m : Nat) (q : Int) : List Char :=
  if m = 0 then positional style ['0'] 0
  else
    let d := shortest m q
    let ds := Nat.toDigits 10 d.digits
    let lead := d.exponent + ds.length - 1
    if style.positional lead then positional style ds d.exponent else scientific ds lead

/-- A double as text. The sign of zero shows, that of not-a-number does not. -/
def write (style : Style) (x : Float) : String :=
  match Binary.parts x with
  | .nan => "NaN"
  | .infinite negative => if negative then "-inf" else "inf"
  | .finite negative m q =>
    String.ofList ((if negative then ['-'] else []) ++ magnitude style m q)

/-- A double as the text of a value. -/
def text (x : Float) : String := write .value x

/-- A double as a literal. -/
def literal (x : Float) : String := write .literal x

/-- The double nearest to the number `± ds · 10 ^ e`, where `ds` are digits of which the first is
not zero. Numbers far beyond the range of doubles are settled without computing the power. -/
def nearest (negative : Bool) (ds : List Char) (e : Int) : Float :=
  -- The number is below `10 ^ lead`, and unless it is zero no less than a tenth of that.
  let lead := e + ds.length
  if ds.isEmpty ∨ lead < -400 then Binary.ofMagnitude negative 0
  else if 400 < lead then Binary.ofMagnitude negative Binary.infinityBits
  else
    Binary.nearest negative (Integer.ofDigits ds * Nat.pow 10 e.toNat) (Nat.pow 10 (-e).toNat)

/-- The double that the digits `whole` and `fraction`, with a point between them, stand for when
they are scaled by `10 ^ e`. Zeros at either end are only weight, so the digits that are computed
with are the others. -/
def ofDigits (negative : Bool) (whole fraction : List Char) (e : Int) : Float :=
  let ds := (whole ++ fraction).dropWhile (· == '0')
  let significant := (ds.reverse.dropWhile (· == '0')).reverse
  let zeros := ds.length - significant.length
  nearest negative significant (e - fraction.length + zeros)

/-- The magnitude from which on an exponent grows no further. -/
def exponentBound : Nat := 65536

/-- The exponent after one more digit `d`. One that has reached the bound stays as it is. -/
def extendExponent (e : Nat) (d : Char) : Nat :=
  if e < exponentBound then 10 * e + (d.toNat - '0'.toNat) else e

/-- The exponent that a sequence of digits stands for. It is their value as long as that is below
the bound. Digits beyond those that reach the bound are ignored, so the exponent is always below ten
times the bound. -/
def exponentOfDigits (ds : List Char) : Nat := ds.foldl extendExponent 0

/-- The exponent that ends a number: none at all, or a mark, an optional sign and digits. -/
def exponent? : List Char → Option Int
  | [] => some 0
  | c :: cs => if c = 'e' ∨ c = 'E' then Integer.signed? exponentOfDigits cs else none

/-- The digits behind the point, if there is a point, and what follows them. -/
def splitFraction : List Char → List Char × List Char
  | '.' :: cs => cs.span Char.isDigit
  | cs => ([], cs)

/-- Reads a number without a sign: digits, perhaps with a point among or around them, perhaps with
an exponent. -/
def unsigned? (negative : Bool) (cs : List Char) : Option Float :=
  let (whole, rest) := cs.span Char.isDigit
  let (fraction, rest) := splitFraction rest
  if whole.isEmpty && fraction.isEmpty then none
  else (exponent? rest).map (ofDigits negative whole fraction)

/-- Reads the name of a value that has no digits, in any case of letters. -/
def named? (negative : Bool) (cs : List Char) : Option Float :=
  let name := String.ofList (cs.map Char.toLower)
  if name = "inf" ∨ name = "infinity" then some (Binary.ofMagnitude negative Binary.infinityBits)
  else if name = "nan" then some (0 / 0)
  else none

/-- Reads a double without its sign. -/
def magnitude? (negative : Bool) (cs : List Char) : Option Float :=
  (named? negative cs).or (unsigned? negative cs)

/-- Reads a double: an optional sign, then a number or the name of a value that has no digits. -/
def read? (s : String) : Option Float :=
  match s.toList with
  | '-' :: cs => magnitude? true cs
  | '+' :: cs => magnitude? false cs
  | cs => magnitude? false cs

end Brisk.Decimal
