import Brisk.Token.Scan

/-! # From a source to its tokens

A lexer hands out the tokens of a source one after another. It can be asked for the next token
without end: after an error it goes on with the first character that it has not consumed, and at the
end of the source it repeats the token for that. It can also be iterated, and then stops after the
end of the source or an error.

For a parser the tokens of a source are laid out as a stream, which has a last element that repeats
for ever.
-/

namespace Brisk

/-- Takes the next token of a source. -/
def Source.lexeme (limits : Limits) (src : Source) : Except LexError Lexeme × Source :=
  let (result, rest) := Scan.lexeme limits src.edge src.ahead
  (result, { src with ahead := rest })

/-- A source that is being taken apart into tokens, and whether iterating over them has stopped. -/
structure Lexer where
  limits : Limits
  source : Source
  finished : Bool := false
  deriving DecidableEq, Repr

namespace Lexer

/-- Takes the next token, whether iterating has stopped or not. -/
def next (lexer : Lexer) : Except LexError Lexeme × Lexer :=
  let (result, source) := lexer.source.lexeme lexer.limits
  (result, { lexer with source })

/-- Whether an element ends an iteration. -/
def isLast : Except LexError Lexeme → Bool
  | .ok lexeme => lexeme.token == .endOfFile
  | .error _ => true

/-- Takes the next token, unless iterating has stopped. It stops with the end of the source and
with the first error. -/
def step (lexer : Lexer) : Option (Except LexError Lexeme) × Lexer :=
  if lexer.finished then (none, lexer)
  else
    let (result, lexer) := lexer.next
    (some result, { lexer with finished := isLast result })

end Lexer

/-- The elements of a token stream: tokens, and errors in their places. -/
abbrev Lexed := Except LexError Lexeme

/-- An endless stream of tokens and errors: finitely many that are pending, and then one that
repeats for ever. -/
structure Lexemes where
  pending : List Lexed
  last : Lexed

namespace Lexemes

/-- The first element of a stream, and the stream behind it. -/
def next (lexemes : Lexemes) : Lexed × Lexemes :=
  match lexemes.pending with
  | [] => (lexemes.last, lexemes)
  | item :: pending => (item, { lexemes with pending })

end Lexemes

namespace Source

/-- The tokens and errors of a source up to its end. Each takes at least one piece, so there are at
most `bound` of them if there are no more pieces than that. -/
def lexed (limits : Limits) (bound : Nat) (src : Source) : List Lexed :=
  match bound with
  | 0 => []
  | bound + 1 =>
    if src.ahead.isEmpty then []
    else
      let (item, src) := src.lexeme limits
      match item with
      | .ok ⟨.endOfFile, _⟩ => []
      | item => item :: lexed limits bound src

/-- The stream of the tokens and errors of a source. What repeats is what the edge of the source
gives. -/
def lexemes (limits : Limits) (src : Source) : Lexemes where
  pending := src.lexed limits src.ahead.length
  last := (Source.lexeme limits { src with ahead := [] }).1

end Source

end Brisk
