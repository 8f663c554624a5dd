import Brisk.Token.Lexer
import Brisk.Tree.Basic
import Brisk.Tree.Fault

/-! # From tokens to trees

The grammar, with what binds loosest first:

```text
program     := statement*
statement   := 'let' 'mut'? NAME '=' expression ';'  |  'fn' NAME parameters block
             | 'while' condition block  |  conditional  |  'return' expression? ';'
             | expression ';'  |  ';'
conditional := 'if' condition block ('else' (conditional | block))?
condition   := '(' expression ')'
block       := '{' statement* '}'
parameters  := '(' ('mut'? NAME (',' 'mut'? NAME)*)? ')'
expression  := '$' NAME '=' expression  |  NAME '=' expression  |  ladder
ladder      := casts joined by binary operators, to the left within each level
cast        := unary ('<-' TYPE)?
unary       := ('-' | '!')? primary
primary     := LITERAL  |  (NAME | '(' expression ')' | '#' parameters block) arguments?
             | '[' expression ']' arguments
arguments   := '(' (expression (',' expression)*)? ')'
```

Expressions, blocks and conditionals open a level of nesting, and the number of levels is bounded.
So the grammar is written over the three parsers that hold one level further in, and parsing
recurses on the number of levels that may still be opened. The loops within a level take at most one
round for each item of the stream that is not yet consumed.

Parsing does not recover: the first mismatch ends it.
-/

namespace Brisk

/-- The token that is being looked at, and those behind it. -/
structure Parse.State where
  current : Lexeme
  ahead : Lexemes

/-- Parsers consume tokens from the front. After an error the tokens behind it are still there. -/
abbrev Parse := EStateM ParseError Parse.State

namespace Parse

/-- The token that is being looked at. -/
def current : Parse Token := fun s => .ok s.current.token s

/-- The position of the token that is being looked at. -/
def position : Parse Position := fun s => .ok s.current.position s

/-- Goes on to the next token. An error in its place is raised. -/
def advance : Parse Unit := fun s =>
  match s.ahead.next with
  | (.ok lexeme, ahead) => .ok () ⟨lexeme, ahead⟩
  | (.error e, ahead) => .error (.lex e) { s with ahead }

/-- The items that are not yet consumed. Loops take one round for each of them at most. -/
def rounds : Parse (List Lexed) := fun s => .ok (.ok s.current :: s.ahead.pending) s

/-- Reports a fault of the token that is being looked at. -/
def fail {α : Type} (fault : ParseFault) : Parse α := fun s =>
  .error (.invalid s.current.position fault) s

/-- Reports that something else was expected. -/
def unexpected {α : Type} (expected : String) : Parse α := do
  fail (.unexpected expected (← current))

/-- Consumes the given token. -/
def expect (token : Token) : Parse Unit := do
  if (← current) = token then advance else unexpected token.describe

/-- Consumes a name. -/
def identifier : Parse String := do
  match ← current with
  | .identifier name =>
    advance
    return name
  | _ => unexpected "identifier"

/-- Consumes the mark of what can be assigned to, if it is there. -/
def mutability : Parse Bool := do
  if (← current) = .keyword .mutKey then
    advance
    return true
  else return false

/-- Consumes a parameter and those behind it, when parameters with the names `seen` are already
there. -/
def parameterList (seen : List String) : List Lexed → Parse (List Parameter)
  | [] => return []
  | _ :: rounds => do
    let mutable ← mutability
    let start ← position
    match ← current with
    | .identifier name =>
      advance
      if name ∈ seen then throw (.invalid start (.duplicateParameter name))
      else if (← current) = .symbol .comma then
        advance
        return ⟨name, mutable⟩ :: (← parameterList (name :: seen) rounds)
      else return [⟨name, mutable⟩]
    | token => fail (.expectedParameter token)

/-- Consumes parameters in parentheses. -/
def parameters : Parse (List Parameter) := do
  expect (.symbol .leftParen)
  let ps ← if (← current) = .symbol .rightParen then pure [] else parameterList [] (← rounds)
  expect (.symbol .rightParen)
  return ps

/-- The parsers that open a level of nesting. -/
structure Nested where
  expression : Parse Expr
  block : Parse (List Stmt)
  conditional : Parse Conditional

end Parse

end Brisk
