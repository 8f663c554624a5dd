/-! # Integers of 32 bits

Integers are computed as mathematical integers and then checked: a result that does not fit in 32
bits is no integer at all, so nothing ever wraps around. They are read from and written to decimal
text.
-/

namespace Brisk.Integer

/-- The 32-bit integer of a given value, if the value fits. -/
def ofInt? (n : Int) : Option Int32 :=
  if -2147483648 ≤ n ∧ n ≤ 2147483647 then some (Int32.ofInt n) else none

/-- The value of a sequence of decimal digits, the most significant one first. -/
def ofDigits (ds : List Char) : Nat :=
  ds.foldl (fun n d => 10 * n + (d.toNat - '0'.toNat)) 0

/-- What `value` makes of a non-empty sequence of decimal digits, and nothing for any other text. -/
def digits? (value : List Char → Nat) (ds : List Char) : Option Nat :=
  if ds ≠ [] ∧ ds.all Char.isDigit then some (value ds) else none

/-- The value of a non-empty sequence of decimal digits, and nothing for any other text. -/
def natural? (ds : List Char) : Option Nat := digits? ofDigits ds

/-- What a text stands for that consists of an optional sign and decimal digits, of which `value`
makes a magnitude. -/
def signed? (value : List Char → Nat) : List Char → Option Int
  | '-' :: ds => (digits? value ds).map fun n => -(n : Int)
  | '+' :: ds => (digits? value ds).map fun n => (n : Int)
  | ds => (digits? value ds).map fun n => (n : Int)

/-- Reads an integer from decimal text: an optional sign, then digits, of a value that fits. -/
def read? (s : String) : Option Int32 :=
  (signed? ofDigits s.toList).bind ofInt?

/-- An integer as decimal text, with a sign only when it is negative. -/
def text (n : Int32) : String :=
  toString n.toInt

end Brisk.Integer
