import Brisk.Parse.Program
import Brisk.Proofs.Token.Scanner

/-!
# Parsing with a counter

The grammar is written over the levels of nesting that may still be opened, and over streams of
tokens. A `Parser` works on a scanner, looks at one token at a time, and counts the levels that are
open: each is counted when it is opened, and no longer when it is left, whether what is in it has
been parsed or not. Its loops stop for no other reason than what they read.

What opens a level recurs through the counter only, which refuses to open more levels than may be.
So the recursion is laid out on one level more than that (`Parser.levels`), and a parser that went
beyond would never come to an end.

`Parser.parse` and `Parser.parseExpression` are what a parser is called for. They can be called
again, also after an error.
-/

namespace Brisk

/-- The state of a parser. -/
structure Parser where
  scanner : Scanner
  /-- The token that is being looked at. -/
  current : Token
  /-- Where it stands. -/
  position : Position
  /-- How many levels of nesting are open. -/
  depth : Nat
  /-- How many may be open. -/
  bound : Nat
  /-- The most that have been open at a time. -/
  deepest : Nat

/-- Parsers at work. -/
abbrev Parsing := Running ParseError Parser

namespace Parser

/-- A parser that has not been called yet. -/
def around (scanner : Scanner) : Parser :=
  ⟨scanner, .endOfFile, .start, 0, scanner.limits.nesting, 0⟩

/-- A parser of bytes of which nothing has been read. -/
def ofBytes (limits : Limits) (bytes : List UInt8) (ending : Source.Ending) : Parser :=
  around (.ofBytes limits bytes ending)

/-! ## Tokens -/

/-- The token that is being looked at. -/
def token : Parsing Token := fun p => some (.ok p.current, p)

/-- Where the token stands that is being looked at. -/
def place : Parsing Position := fun p => some (.ok p.position, p)

/-- Goes on to the next token. -/
noncomputable def advance : Parsing Unit := fun p =>
  (Scanner.scan p.scanner).map fun
    | (.ok l, scanner) => (.ok (), { p with scanner, current := l.token, position := l.position })
    | (.error e, scanner) => (.error (.lex e), { p with scanner })

/-- Reports a fault of the token that is being looked at. -/
def fail {α : Type} (fault : ParseFault) : Parsing α := fun p =>
  some (.error (.invalid p.position fault), p)

/-- Reports that something else was expected. -/
def unexpected {α : Type} (expected : String) : Parsing α := do
  fail (.unexpected expected (← token))

/-- Consumes the given token. -/
noncomputable def consume (expected : Token) : Parsing Unit := do
  if (← token) = expected then advance else unexpected expected.describe

/-- Consumes a name. -/
noncomputable def identifier : Parsing String := do
  match ← token with
  | .identifier name =>
    advance
    return name
  | _ => unexpected "identifier"

/-- Consumes the mark of what can be assigned to, if it is there. -/
noncomputable def mutability : Parsing Bool := do
  if (← token) = .keyword .mutKey then
    advance
    return true
  else return false

/-- Consumes a parameter and those behind it, when parameters with the names `seen` are already
there. -/
noncomputable def parameterList (seen : List String) : Parsing (List Parameter) :=
  Running.loop seen fun seen => do
    let mutable ← mutability
    let start ← place
    match ← token with
    | .identifier name =>
      advance
      if name ∈ seen then throw (.invalid start (.duplicateParameter name))
      else if (← token) = .symbol .comma then
        advance
        return .again (name :: seen) (⟨name, mutable⟩ :: ·)
      else return .done [⟨name, mutable⟩]
    | found => fail (.expectedParameter found)

/-- Consumes parameters in parentheses. -/
noncomputable def parameters : Parsing (List Parameter) := do
  consume (.symbol .leftParen)
  let ps ← if (← token) = .symbol .rightParen then pure [] else parameterList []
  consume (.symbol .rightParen)
  return ps

/-! ## Nesting -/

/-- A parser that one more level is open in. -/
def deeper (p : Parser) : Parser :=
  { p with depth := p.depth + 1, deepest := max p.deepest (p.depth + 1) }

/-- A parser that one level less is open in. -/
def shallower (p : Parser) : Parser := { p with depth := p.depth - 1 }

/-- Parses something in a level of its own, which is left in any case. -/
def nested {α : Type} (body : Parsing α) : Parsing α := fun p =>
  if p.bound ≤ p.depth then fail (.nestingTooDeep p.bound) p
  else (body p.deeper).map fun (result, p) => (result, p.shallower)

/-- The parsers that open a level of nesting. -/
structure Nested where
  expression : Parsing Expr
  block : Parsing (List Stmt)
  conditional : Parsing Conditional

/-! ## Operators -/

/-- Consumes the operators of a level that follow the operand `left`, with their right operands. -/
noncomputable def chain (level : Nat) (operand : Parsing Expr) (left : Expr) : Parsing Expr :=
  Running.loop left fun left => do
    match Parse.binaryOp? level (← token) with
    | none => return .done left
    | some op =>
      advance
      let right ← operand
      return .again (.binary op left right) id

/-- Consumes operands that are joined by operators of the given levels, the loosest of which comes
first. -/
noncomputable def ladder (operand : Parsing Expr) : List Nat → Parsing Expr
  | [] => operand
  | level :: tighter => do
    let left ← ladder operand tighter
    chain level (ladder operand tighter) left

section Level

variable (inner : Nested)

/-! ## Expressions -/

/-- Consumes an argument and those behind it. -/
noncomputable def argumentList : Parsing (List Expr) :=
  Running.loop () fun _ => do
    let argument ← inner.expression
    if (← token) = .symbol .comma then
      advance
      return .again () (argument :: ·)
    else return .done [argument]

/-- Consumes arguments in parentheses. -/
noncomputable def arguments : Parsing (List Expr) := do
  consume (.symbol .leftParen)
  let es ← if (← token) = .symbol .rightParen then pure [] else argumentList inner
  consume (.symbol .rightParen)
  return es

/-- What has been consumed is called if arguments follow. -/
noncomputable def callSuffix (callee : Expr) : Parsing Expr := do
  if (← token) = .symbol .leftParen then return .call false callee (← arguments inner)
  else return callee

/-- Consumes an expression that needs no operator. -/
noncomputable def primary : Parsing Expr := do
  let found ← token
  match Parse.literal? found with
  | some l =>
    advance
    return .literal l
  | none =>
    match found with
    | .identifier name =>
      advance
      callSuffix inner (.name name)
    | .symbol .leftParen =>
      advance
      let e ← inner.expression
      consume (.symbol .rightParen)
      callSuffix inner (.paren e)
    | .symbol .hash =>
      advance
      let ps ← parameters
      let body ← inner.block
      callSuffix inner (.lambda ps body)
    | .symbol .leftBracket =>
      advance
      let callee ← inner.expression
      consume (.symbol .rightBracket)
      return .call true callee (← arguments inner)
    | _ => fail (.expectedExpression found)

/-- Consumes an operand with at most one operator in front of it. -/
noncomputable def unary : Parsing Expr := do
  match Parse.unaryOp? (← token) with
  | some op =>
    advance
    return .unary op (← primary inner)
  | none => primary inner

/-- Consumes an operand with at most one cast behind it. -/
noncomputable def cast : Parsing Expr := do
  let operand ← unary inner
  if (← token) = .symbol .arrow then
    advance
    match ← token with
    | .keyword (.type t) =>
      advance
      return .cast operand t
    | found => fail (.expectedType found)
  else return operand

/-- Consumes the value of an assignment to `target`. -/
noncomputable def assignment (target : String) : Parsing Expr := do
  return .assign target (← inner.expression)

/-- Consumes an expression, in a level that has been opened. -/
noncomputable def expressionBody : Parsing Expr := do
  if (← token) = .symbol .dollar then
    advance
    let target ← identifier
    consume (.symbol .assign)
    assignment inner target
  else
    let left ← ladder (cast inner) BinaryOp.levels
    if (← token) = .symbol .assign then
      match left with
      | .name target =>
        advance
        assignment inner target
      | _ => fail .expectedTarget
    else return left

/-! ## Statements -/

/-- Consumes the condition of a statement, in parentheses. -/
noncomputable def condition (keyword : Keyword) : Parsing Expr := do
  consume (.symbol .leftParen)
  if Parse.startsExpression (← token) then
    let e ← inner.expression
    consume (.symbol .rightParen)
    return e
  else fail (.expectedPredicate keyword)

/-- Consumes a statement. -/
noncomputable def statement : Parsing Stmt := do
  match ← token with
  | .keyword .letKey =>
    advance
    let mutable ← mutability
    let name ← identifier
    consume (.symbol .assign)
    let value ← inner.expression
    consume (.symbol .semicolon)
    return .declare name mutable value
  | .keyword .fnKey =>
    advance
    let name ← identifier
    let ps ← parameters
    let body ← inner.block
    return .function name ps body
  | .keyword .whileKey =>
    advance
    let test ← condition inner .whileKey
    let body ← inner.block
    return .loop test body
  | .keyword .ifKey => return .conditional (← inner.conditional)
  | .keyword .returnKey =>
    advance
    let value ← if (← token) = .symbol .semicolon then pure none else some <$> inner.expression
    consume (.symbol .semicolon)
    return .leave value
  | .symbol .semicolon =>
    advance
    return .empty
  | _ =>
    let e ← inner.expression
    consume (.symbol .semicolon)
    return .expression e

/-- Consumes statements up to and including the brace that closes their block. -/
noncomputable def blockStatements : Parsing (List Stmt) :=
  Running.loop () fun _ => do
    match ← token with
    | .symbol .rightCurly =>
      advance
      return .done []
    | .endOfFile => unexpected (Token.symbol .rightCurly).describe
    | _ =>
      let s ← statement inner
      return .again () (s :: ·)

/-- Consumes a block, in a level that has been opened. -/
noncomputable def blockBody : Parsing (List Stmt) := do
  consume (.symbol .leftCurly)
  blockStatements inner

/-- Consumes what is executed when a condition does not hold, if it is there. -/
noncomputable def alternative : Parsing Alternative := do
  if (← token) = .keyword .elseKey then
    advance
    match ← token with
    | .keyword .ifKey => return .chain (← inner.conditional)
    | .symbol .leftCurly => return .block (← inner.block)
    | _ => unexpected "'\x7b' or 'if'"
  else return .nothing

/-- Consumes a conditional, in a level that has been opened. -/
noncomputable def conditionalBody : Parsing Conditional := do
  advance
  let test ← condition inner .ifKey
  let body ← inner.block
  return .mk test body (← alternative inner)

/-- Consumes statements up to the end of the source. -/
noncomputable def topStatements : Parsing (List Stmt) :=
  Running.loop () fun _ => do
    if (← token) = .endOfFile then return .done []
    else
      let s ← statement inner
      return .again () (s :: ·)

end Level

/-- What opens a level, when that can be done in what is in it as often as given. -/
noncomputable def levels : Nat → Nested
  | 0 => ⟨Running.never, Running.never, Running.never⟩
  | n + 1 => ⟨nested (expressionBody (levels n)), nested (blockBody (levels n)),
      nested (conditionalBody (levels n))⟩

/-- What opens a level, which is refused before it has been opened too often. -/
noncomputable def opening : Parsing Nested := fun p => some (.ok (levels (p.bound + 1)), p)

/-! ## Loops as recursions -/

/-- A parameter is read, and behind a comma the next ones. -/
theorem parameterList_eq (seen : List String) : parameterList seen = (do
    let mutable ← mutability
    let start ← place
    match ← token with
    | .identifier name =>
      advance
      if name ∈ seen then throw (.invalid start (.duplicateParameter name))
      else if (← token) = .symbol .comma then
        advance
        return ⟨name, mutable⟩ :: (← parameterList (name :: seen))
      else return [⟨name, mutable⟩]
    | found => fail (.expectedParameter found)) := by
  rw [parameterList, Running.loop_eq, bind_assoc]
  refine bind_congr fun mutable => ?_
  rw [bind_assoc]
  refine bind_congr fun start => ?_
  rw [bind_assoc]
  refine bind_congr fun found => ?_
  cases found with
  | identifier name =>
    simp only [bind_assoc]
    refine bind_congr fun _ => ?_
    by_cases hseen : name ∈ seen
    · simp [hseen]
    · -- The loop goes on only behind a comma.
      simp only [if_neg hseen, bind_assoc]
      refine bind_congr fun next => ?_
      by_cases hcomma : next = .symbol .comma
      · simp [hcomma, parameterList]
      · simp [hcomma]
  | endOfFile | symbol | keyword | str | int | float => rfl

/-- An argument is read, and behind a comma the next ones. -/
theorem argumentList_eq (inner : Nested) : argumentList inner = (do
    let argument ← inner.expression
    if (← token) = .symbol .comma then
      advance
      return argument :: (← argumentList inner)
    else return [argument]) := by
  show Running.loop () _ = _
  rw [Running.loop_eq, bind_assoc]
  refine bind_congr fun argument => ?_
  rw [bind_assoc]
  refine bind_congr fun next => ?_
  by_cases hcomma : next = .symbol .comma
  · simp [hcomma, argumentList]
  · simp [hcomma]

/-- An operator of a level is read with its right operand, and then the next one. -/
theorem chain_eq (level : Nat) (operand : Parsing Expr) (left : Expr) :
    chain level operand left = (do
      match Parse.binaryOp? level (← token) with
      | none => return left
      | some op =>
        advance
        let right ← operand
        chain level operand (.binary op left right)) := by
  -- The body of the loop is a round of the row, and the rest of the row is the loop again.
  rw [chain, Running.loop_eq, bind_assoc]
  refine bind_congr fun found => ?_
  cases Parse.binaryOp? level found with
  | none => simp
  | some op => simp [chain]

/-- A statement of a block is read, and then the next ones up to the closing brace. -/
theorem blockStatements_eq (inner : Nested) : blockStatements inner = (do
    match ← token with
    | .symbol .rightCurly =>
      advance
      return []
    | .endOfFile => unexpected (Token.symbol .rightCurly).describe
    | _ =>
      let s ← statement inner
      return s :: (← blockStatements inner)) := by
  show Running.loop () _ = _
  rw [Running.loop_eq, bind_assoc]
  refine bind_congr fun found => ?_
  -- A block is closed, or the source ends in it, or there is another statement.
  split
  · simp
  · rfl
  · simp [blockStatements]

/-- A statement of a program is read, and then the next ones up to the end of the source. -/
theorem topStatements_eq (inner : Nested) : topStatements inner = (do
    if (← token) = .endOfFile then return []
    else
      let s ← statement inner
      return s :: (← topStatements inner)) := by
  show Running.loop () _ = _
  rw [Running.loop_eq, bind_assoc]
  refine bind_congr fun found => ?_
  by_cases hend : found = .endOfFile
  · simp [hend]
  · simp [hend, topStatements]

/-! ## Calls -/

/-- Parses a program. -/
noncomputable def parse : Parsing Program := do
  advance
  return ⟨← topStatements (← opening)⟩

/-- Parses what is one expression. -/
noncomputable def parseExpression : Parsing Expr := do
  advance
  let e ← (← opening).expression
  consume .endOfFile
  return e

end Parser

end Brisk
