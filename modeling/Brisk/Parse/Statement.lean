import Brisk.Parse.Expression

/-! # Parsing statements

The first token of a statement tells what it is. Everything that is no other statement is an
expression.
-/

namespace Brisk

namespace Parse

/-- Whether an expression can start with a token. -/
def startsExpression : Token → Bool
  | .identifier _ | .int _ | .float _ | .str _ | .keyword (.truth _) => true
  | .symbol s =>
    match s with
    | .leftParen | .leftBracket | .hash | .minus | .bang | .dollar => true
    | _ => false
  | _ => false

/-- Consumes the condition of a statement, in parentheses. -/
def condition (inner : Nested) (statement : Keyword) : Parse Expr := do
  expect (.symbol .leftParen)
  if startsExpression (← current) then
    let e ← inner.expression
    expect (.symbol .rightParen)
    return e
  else fail (.expectedPredicate statement)

/-- Consumes a statement. -/
def statement (inner : Nested) : Parse Stmt := do
  match ← current with
  | .keyword .letKey =>
    advance
    let mutable ← mutability
    let name ← identifier
    expect (.symbol .assign)
    let value ← inner.expression
    expect (.symbol .semicolon)
    return .declare name mutable value
  | .keyword .fnKey =>
    advance
    let name ← identifier
    let ps ← parameters
    let body ← inner.block
    return .function name ps body
  | .keyword .whileKey =>
    advance
    let test ← condition inner .whileKey
    let body ← inner.block
    return .loop test body
  | .keyword .ifKey => return .conditional (← inner.conditional)
  | .keyword .returnKey =>
    advance
    let value ← if (← current) = .symbol .semicolon then pure none
      else some <$> inner.expression
    expect (.symbol .semicolon)
    return .leave value
  | .symbol .semicolon =>
    advance
    return .empty
  | _ =>
    let e ← inner.expression
    expect (.symbol .semicolon)
    return .expression e

/-- Consumes statements up to and including the brace that closes their block. -/
def blockStatements (inner : Nested) : List Lexed → Parse (List Stmt)
  | [] => unexpected (Token.symbol .rightCurly).describe
  | _ :: rounds => do
    match ← current with
    | .symbol .rightCurly =>
      advance
      return []
    | .endOfFile => unexpected (Token.symbol .rightCurly).describe
    | _ =>
      let s ← statement inner
      return s :: (← blockStatements inner rounds)

/-- Consumes a block, in a level of its own. -/
def blockBody (inner : Nested) : Parse (List Stmt) := do
  expect (.symbol .leftCurly)
  blockStatements inner (← rounds)

/-- Consumes what is executed when a condition does not hold, if it is there. -/
def alternative (inner : Nested) : Parse Alternative := do
  if (← current) = .keyword .elseKey then
    advance
    match ← current with
    | .keyword .ifKey => return .chain (← inner.conditional)
    | .symbol .leftCurly => return .block (← inner.block)
    | _ => unexpected "'\x7b' or 'if'"
  else return .nothing

/-- Consumes a conditional, in a level of its own. -/
def conditionalBody (inner : Nested) : Parse Conditional := do
  advance
  let test ← condition inner .ifKey
  let body ← inner.block
  return .mk test body (← alternative inner)

end Parse

end Brisk
