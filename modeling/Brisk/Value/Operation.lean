import Brisk.Value.Fault

/-! # Operators on values

Binary operators are defined only for operands of the same kind: nothing is converted silently.
Operations on integers are exact, and an error when the result does not fit in 32 bits.
-/

namespace Brisk

/-- The integer of a value, which must fit in 32 bits. -/
def checked (n : Int) : Except RuntimeError Value :=
  match Integer.ofInt? n with
  | some n => .ok (.int n)
  | none => .error .overflow

namespace BinaryOp

/-- The result of an operator on integers, if it is defined on them. Division cuts off toward zero,
and a remainder takes the sign of the dividend. A remainder is defined where the quotient fits. -/
def onInt (a b : Int) : BinaryOp → Option (Except RuntimeError Value)
  | equal => some (.ok (.bool (a == b)))
  | notEqual => some (.ok (.bool (a != b)))
  | less => some (.ok (.bool (a < b)))
  | greater => some (.ok (.bool (b < a)))
  | lessEqual => some (.ok (.bool (a ≤ b)))
  | greaterEqual => some (.ok (.bool (b ≤ a)))
  | add => some (checked (a + b))
  | subtract => some (checked (a - b))
  | multiply => some (checked (a * b))
  | divide => some (if b = 0 then .error .divisionByZero else checked (a.tdiv b))
  | remainder => some (
    if b = 0 then .error .divisionByZero
    else (checked (a.tdiv b)).bind fun _ => checked (a.tmod b))
  | or | and | compose => none

/-- The result of an operator on floats, if it is defined on them. -/
def onFloat (a b : Float) : BinaryOp → Option Value
  | equal => some (.bool (a == b))
  | notEqual => some (.bool (a != b))
  | less => some (.bool (a < b))
  | greater => some (.bool (b < a))
  | lessEqual => some (.bool (a ≤ b))
  | greaterEqual => some (.bool (b ≤ a))
  | add => some (.float (a + b))
  | subtract => some (.float (a - b))
  | multiply => some (.float (a * b))
  | divide => some (.float (a / b))
  | remainder => some (.float (Binary.remainder a b))
  | or | and | compose => none

/-- The result of an operator on truth values, if it is defined on them. -/
def onBool (a b : Bool) : BinaryOp → Option Value
  | or => some (.bool (a || b))
  | and => some (.bool (a && b))
  | equal => some (.bool (a == b))
  | notEqual => some (.bool (a != b))
  | _ => none

/-- The result of an operator on texts, if it is defined on them. -/
def onStr (a b : String) : BinaryOp → Option Value
  | add => some (.str (a ++ b))
  | _ => none

/-- The result of an operator on functions, if it is defined on them. Only functions of one
parameter can be composed. -/
def onFunction (f g : Function) : BinaryOp → Option (Except RuntimeError Value)
  | compose => some (
    if f.arity = 1 ∧ g.arity = 1 then .ok (.function (.composed f g))
    else .error (.compositionArity f.arity g.arity))
  | _ => none

/-- Applies an operator to two values. -/
def apply (op : BinaryOp) (left right : Value) : Except RuntimeError Value :=
  let result := match left, right with
    | .int a, .int b => onInt a.toInt b.toInt op
    | .float a, .float b => (onFloat a b op).map .ok
    | .bool a, .bool b => (onBool a b op).map .ok
    | .str a, .str b => (onStr a b op).map .ok
    | .function f, .function g => onFunction f g op
    | _, _ => none
  result.getD (.error (.invalidOperation op left.kind right.kind))

end BinaryOp

/-- Applies an operator to a value. -/
def UnaryOp.apply (op : UnaryOp) (operand : Value) : Except RuntimeError Value :=
  match op, operand with
  | negate, .int n => checked (-n.toInt)
  | negate, .float x => .ok (.float (-x))
  | not, .bool b => .ok (.bool !b)
  | op, operand => .error (.invalidUnary op operand.kind)

end Brisk
