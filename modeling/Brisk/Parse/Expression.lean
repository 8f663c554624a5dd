import Brisk.Parse.Basic

/-! # Parsing expressions

Operators bind in levels, and group to the left within each of them. An operand has at most one
operator in front of it and at most one cast behind it. What may be called is a name, an expression
in parentheses or brackets, or a function that is written down.
-/

namespace Brisk

namespace Parse

/-- Consumes an argument and those behind it. -/
def argumentList (inner : Nested) : List Lexed → Parse (List Expr)
  | [] => return []
  | _ :: rounds => do
    let argument ← inner.expression
    if (← current) = .symbol .comma then
      advance
      return argument :: (← argumentList inner rounds)
    else return [argument]

/-- Consumes arguments in parentheses. -/
def arguments (inner : Nested) : Parse (List Expr) := do
  expect (.symbol .leftParen)
  let es ← if (← current) = .symbol .rightParen then pure [] else argumentList inner (← rounds)
  expect (.symbol .rightParen)
  return es

/-- What has been consumed is called if arguments follow. -/
def callSuffix (inner : Nested) (callee : Expr) : Parse Expr := do
  if (← current) = .symbol .leftParen then return .call false callee (← arguments inner)
  else return callee

/-- The literal that a token is. -/
def literal? : Token → Option Literal
  | .int n => some (.int n)
  | .float x => some (.float x)
  | .str s => some (.str s)
  | .keyword (.truth b) => some (.bool b)
  | _ => none

/-- Consumes an expression that needs no operator. -/
def primary (inner : Nested) : Parse Expr := do
  let token ← current
  match literal? token with
  | some l =>
    advance
    return .literal l
  | none =>
    match token with
    | .identifier name =>
      advance
      callSuffix inner (.name name)
    | .symbol .leftParen =>
      advance
      let e ← inner.expression
      expect (.symbol .rightParen)
      callSuffix inner (.paren e)
    | .symbol .hash =>
      advance
      let ps ← parameters
      let body ← inner.block
      callSuffix inner (.lambda ps body)
    | .symbol .leftBracket =>
      advance
      let callee ← inner.expression
      expect (.symbol .rightBracket)
      return .call true callee (← arguments inner)
    | _ => fail (.expectedExpression token)

/-- The operator that a token is in front of an operand. -/
def unaryOp? : Token → Option UnaryOp
  | .symbol s => UnaryOp.ofSymbol? s
  | _ => none

/-- Consumes an operand with at most one operator in front of it. -/
def unary (inner : Nested) : Parse Expr := do
  match unaryOp? (← current) with
  | some op =>
    advance
    return .unary op (← primary inner)
  | none => primary inner

/-- Consumes an operand with at most one cast behind it. -/
def cast (inner : Nested) : Parse Expr := do
  let operand ← unary inner
  if (← current) = .symbol .arrow then
    advance
    match ← current with
    | .keyword (.type t) =>
      advance
      return .cast operand t
    | token => fail (.expectedType token)
  else return operand

/-- The operator of a given level that a token is between two operands. -/
def binaryOp? (level : Nat) : Token → Option BinaryOp
  | .symbol s => (BinaryOp.ofSymbol? s).filter (·.level = level)
  | _ => none

/-- Consumes the operators of one level that follow the operand `left`, with their right operands,
and groups them to the left. -/
def chain (level : Nat) (operand : Parse Expr) : List Lexed → Expr → Parse Expr
  | [], left => return left
  | _ :: rounds, left => do
    match binaryOp? level (← current) with
    | none => return left
    | some op =>
      advance
      let right ← operand
      chain level operand rounds (.binary op left right)

/-- Consumes operands that are joined by operators of the given levels, the loosest of which comes
first. -/
def ladder (operand : Parse Expr) : List Nat → Parse Expr
  | [] => operand
  | level :: tighter => do
    let left ← ladder operand tighter
    chain level (ladder operand tighter) (← rounds) left

/-- Consumes the value of an assignment to `target`. -/
def assignment (inner : Nested) (target : String) : Parse Expr := do
  return .assign target (← inner.expression)

/-- Consumes an expression, in a level of its own. -/
def expressionBody (inner : Nested) : Parse Expr := do
  if (← current) = .symbol .dollar then
    advance
    let target ← identifier
    expect (.symbol .assign)
    assignment inner target
  else
    let left ← ladder (cast inner) BinaryOp.levels
    if (← current) = .symbol .assign then
      match left with
      | .name target =>
        advance
        assignment inner target
      | _ => fail .expectedTarget
    else return left

end Parse

end Brisk
