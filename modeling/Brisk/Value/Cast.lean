import Brisk.Value.Fault

/-! # Casts

Values are converted only on request. Numbers, truth values and texts can be cast to each other as
far as that makes sense, and a text must be the text of a number to become one.
-/

namespace Brisk

/-- The integer that is left of a float when its fraction is cut off, if it fits in 32 bits. -/
def truncate (x : Float) : Except RuntimeError Int32 :=
  match (Binary.truncate? x).bind Integer.ofInt? with
  | some n => .ok n
  | none => .error .overflow

namespace Value

/-- Reads a value from a text, or reports that the text has none of the type. -/
def ofText {α : Type} (text : String) (target : TypeName) (wrap : α → Value) (read : Option α) :
    Except RuntimeError Value :=
  match read with
  | some a => .ok (wrap a)
  | none => .error (.malformedCast text target)

/-- Converts a value to a type. -/
def cast (v : Value) (target : TypeName) : Except RuntimeError Value :=
  match v, target with
  | int n, .str => .ok (str (Integer.text n))
  | int n, .float => .ok (float (Float.ofInt n.toInt))
  | int n, .bool => .ok (bool (n != 0))
  | float x, .int => (truncate x).map int
  | float x, .str => .ok (str (Decimal.text x))
  | float x, .bool => .ok (bool (x != 0))
  | bool b, .int => .ok (int (if b then 1 else 0))
  | bool b, .float => .ok (float (if b then 1 else 0))
  | str s, .str => .ok (str s)
  | str s, .int => ofText s target int (Integer.read? s)
  | str s, .float => ofText s target float (Decimal.read? s)
  | v, target => .error (.invalidCast v.kind target)

end Value

end Brisk
