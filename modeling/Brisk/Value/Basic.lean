import Brisk.Tree.Basic

/-! # Values

What expressions are evaluated to. A function value holds the body that it was declared with and no
bindings: names in it are looked up where it is called.
-/

namespace Brisk

/-- Functions: those of a program, the printing function, and compositions, which hand the result
of their first half on to their second. -/
inductive Function where
  | user (parameters : List Parameter) (body : List Stmt)
  | print
  | composed (first second : Function)

namespace Function

/-- The parameters of a function. A composition takes what its first half takes. -/
def parameters : Function → List Parameter
  | user parameters _ => parameters
  | print => [⟨"value", false⟩]
  | composed first _ => first.parameters

/-- The number of arguments that a function takes. -/
def arity (f : Function) : Nat := f.parameters.length

end Function

/-- The results of evaluation. -/
inductive Value where
  | unit
  | int (n : Int32)
  | float (x : Float)
  | str (s : String)
  | bool (b : Bool)
  | function (f : Function)

/-- The kinds of values. -/
inductive Kind where
  | unit
  | int
  | float
  | str
  | bool
  | function
  deriving DecidableEq, Repr

/-- What a kind is called. -/
def Kind.text : Kind → String
  | unit => "unit"
  | int => "int"
  | float => "float"
  | str => "str"
  | bool => "bool"
  | function => "function"

namespace Value

/-- The kind of a value. -/
def kind : Value → Kind
  | unit => .unit
  | int _ => .int
  | float _ => .float
  | str _ => .str
  | bool _ => .bool
  | function _ => .function

/-- A value as it is printed. -/
def text : Value → String
  | unit => "()"
  | int n => Integer.text n
  | float x => Decimal.text x
  | str s => s
  | bool b => if b then "true" else "false"
  | function _ => "<function>"

/-- The value that a literal stands for. -/
def ofLiteral : Literal → Value
  | .int n => int n
  | .float x => float x
  | .str s => str s
  | .bool b => bool b

end Value

end Brisk
