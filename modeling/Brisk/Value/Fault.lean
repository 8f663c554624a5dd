import Brisk.Value.Basic

/-! # Errors of evaluation -/

namespace Brisk

/-- Why an evaluation failed. -/
inductive RuntimeError where
  /-- A binary operator is not defined for operands of these kinds. -/
  | invalidOperation (op : BinaryOp) (left right : Kind)
  /-- A unary operator is not defined for an operand of this kind. -/
  | invalidUnary (op : UnaryOp) (operand : Kind)
  | expectedBool (statement : Keyword) (found : Kind)
  | notCallable (found : Kind)
  | arityMismatch (expected found : Nat)
  /-- Only functions of one parameter can be composed. -/
  | compositionArity (left right : Nat)
  | unbound (name : String)
  | immutable (name : String)
  | redeclared (name : String)
  | overflow
  | divisionByZero
  | callDepthExceeded (max : Nat)
  | invalidCast (source : Kind) (target : TypeName)
  /-- A text cannot be read as a value of the type. -/
  | malformedCast (text : String) (target : TypeName)
  /-- The output could not be written. -/
  | io (reason : String)
  deriving DecidableEq, Repr

/-- The wording of an error. -/
def RuntimeError.message : RuntimeError → String
  | invalidOperation op left right =>
    s!"invalid operation: {left.text} {op.symbol.text} {right.text}"
  | invalidUnary op operand => s!"invalid operation: {op.symbol.text}{operand.text}"
  | expectedBool statement found =>
    s!"{statement.text} condition must be bool, found {found.text}"
  | notCallable found => s!"{found.text} value is not callable"
  | arityMismatch expected found => s!"expected {expected} arguments, found {found}"
  | compositionArity left right =>
    s!"cannot compose functions taking {left} and {right} parameters"
  | unbound name => s!"unbound variable: {name}"
  | immutable name => s!"cannot assign twice to immutable variable: {name}"
  | redeclared name => s!"variable already declared in this scope: {name}"
  | overflow => "integer overflow"
  | divisionByZero => "division by zero"
  | callDepthExceeded max => s!"call depth exceeded {max}"
  | invalidCast source target => s!"cannot cast {source.text} to {target.text}"
  | malformedCast text target => s!"cannot cast {Text.quote text} to {target.text}"
  | io reason => s!"I/O error: {reason}"

end Brisk
