import Brisk.Parse.Statement

/-! # Parsing programs

The levels of nesting are put together here: each is parsed with the parsers of the level further
in, until no further level may be opened. A program is then a list of statements up to the end of
its source.
-/

namespace Brisk

namespace Parse

mutual

/-- Consumes an expression when as many levels as given may be opened, of `max` in all. -/
def expression (max : Nat) : Nat → Parse Expr
  | 0, s => fail (.nestingTooDeep max) s
  | n + 1, s => expressionBody ⟨expression max n, block max n, conditional max n⟩ s

/-- Consumes a block when as many levels as given may be opened, of `max` in all. -/
def block (max : Nat) : Nat → Parse (List Stmt)
  | 0, s => fail (.nestingTooDeep max) s
  | n + 1, s => blockBody ⟨expression max n, block max n, conditional max n⟩ s

/-- Consumes a conditional when as many levels as given may be opened, of `max` in all. -/
def conditional (max : Nat) : Nat → Parse Conditional
  | 0, s => fail (.nestingTooDeep max) s
  | n + 1, s => conditionalBody ⟨expression max n, block max n, conditional max n⟩ s

end

/-- The parsers that may open `max` levels. -/
def nested (max : Nat) : Nested := ⟨expression max max, block max max, conditional max max⟩

/-- Consumes statements up to the end of the source. -/
def topStatements (inner : Nested) : List Lexed → Parse (List Stmt)
  | [] => return []
  | _ :: rounds => do
    if (← current) = .endOfFile then return []
    else
      let s ← statement inner
      return s :: (← topStatements inner rounds)

/-- Consumes a program. -/
def program (max : Nat) : Parse Program := do
  return ⟨← topStatements (nested max) (← rounds)⟩

/-- Consumes a source that is one expression. -/
def soleExpression (max : Nat) : Parse Expr := do
  let e ← (nested max).expression
  expect .endOfFile
  return e

/-- Runs a parser on a stream, from its first token on. What is left of the stream is returned
too. -/
def runOn {α : Type} (p : Parse α) (lexemes : Lexemes) : Except ParseError α × Lexemes :=
  match lexemes.next with
  | (.error e, ahead) => (.error (.lex e), ahead)
  | (.ok first, ahead) =>
    match p ⟨first, ahead⟩ with
    | .ok a s => (.ok a, s.ahead)
    | .error e s => (.error e, s.ahead)

end Parse

/-- Reads a program from a source. -/
def Program.parse (limits : Limits) (src : Source) : Except ParseError Program :=
  ((Parse.program limits.nesting).runOn (src.lexemes limits)).1

/-- Reads a source that is one expression. -/
def Expr.parse (limits : Limits) (src : Source) : Except ParseError Expr :=
  ((Parse.soleExpression limits.nesting).runOn (src.lexemes limits)).1

end Brisk
