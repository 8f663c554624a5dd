import Brisk.Token.Basic

/-! # Syntax trees

A program is a list of statements. Expressions keep their parentheses, so that a tree shows what was
written. Since a function can be written inside an expression, expressions and statements depend on
each other.
-/

namespace Brisk

/-- Operators between two operands. -/
inductive BinaryOp where
  | or
  | and
  | equal
  | notEqual
  | less
  | greater
  | lessEqual
  | greaterEqual
  | add
  | subtract
  | multiply
  | divide
  | remainder
  | compose
  deriving DecidableEq, Repr

namespace BinaryOp

/-- How an operator is written. -/
def symbol : BinaryOp → Symbol
  | or => .or
  | and => .and
  | equal => .equal
  | notEqual => .notEqual
  | less => .less
  | greater => .greater
  | lessEqual => .lessEqual
  | greaterEqual => .greaterEqual
  | add => .plus
  | subtract => .minus
  | multiply => .star
  | divide => .slash
  | remainder => .percent
  | compose => .pipe

/-- The operator that a symbol is between two operands. -/
def ofSymbol? : Symbol → Option BinaryOp
  | .or => some or
  | .and => some and
  | .equal => some equal
  | .notEqual => some notEqual
  | .less => some less
  | .greater => some greater
  | .lessEqual => some lessEqual
  | .greaterEqual => some greaterEqual
  | .plus => some add
  | .minus => some subtract
  | .star => some multiply
  | .slash => some divide
  | .percent => some remainder
  | .pipe => some compose
  | _ => none

/-- How tightly an operator binds: the larger the level, the tighter. -/
def level : BinaryOp → Nat
  | or => 1
  | and => 2
  | equal | notEqual => 3
  | less | greater | lessEqual | greaterEqual => 4
  | add | subtract => 5
  | multiply | divide | remainder => 6
  | compose => 7

/-- The levels of the binary operators, the loosest first. -/
def levels : List Nat := [1, 2, 3, 4, 5, 6, 7]

end BinaryOp

/-- Operators in front of an operand. -/
inductive UnaryOp where
  | negate
  | not
  deriving DecidableEq, Repr

/-- How an operator is written. -/
def UnaryOp.symbol : UnaryOp → Symbol
  | negate => .minus
  | not => .bang

/-- The operator that a symbol is in front of an operand. -/
def UnaryOp.ofSymbol? : Symbol → Option UnaryOp
  | .minus => some negate
  | .bang => some not
  | _ => none

/-- Values that are written down. -/
inductive Literal where
  | int (n : Int32)
  | float (x : Float)
  | str (s : String)
  | bool (b : Bool)
  deriving DecidableEq

/-- A parameter of a function, and whether the function may assign to it. -/
structure Parameter where
  name : String
  mutable : Bool
  deriving DecidableEq, Repr

mutual

/-- What can be evaluated to a value. -/
inductive Expr where
  | assign (target : String) (value : Expr)
  | binary (op : BinaryOp) (left right : Expr)
  | cast (operand : Expr) (target : TypeName)
  | unary (op : UnaryOp) (operand : Expr)
  /-- A call, which may be traced: then it reports its arguments and its result. -/
  | call (traced : Bool) (callee : Expr) (arguments : List Expr)
  | lambda (parameters : List Parameter) (body : List Stmt)
  | name (name : String)
  | paren (inner : Expr)
  | literal (value : Literal)

/-- What can be executed. -/
inductive Stmt where
  | function (name : String) (parameters : List Parameter) (body : List Stmt)
  | declare (name : String) (mutable : Bool) (value : Expr)
  | loop (condition : Expr) (body : List Stmt)
  | conditional (c : Conditional)
  | leave (value : Option Expr)
  | expression (e : Expr)
  | empty

/-- A condition, what is executed if it holds, and what otherwise. -/
inductive Conditional where
  | mk (condition : Expr) (body : List Stmt) (otherwise : Alternative)

/-- What is executed when a condition does not hold. -/
inductive Alternative where
  | nothing
  | block (body : List Stmt)
  | chain (c : Conditional)

end

/-- A program is a list of statements. -/
structure Program where
  statements : List Stmt

end Brisk
