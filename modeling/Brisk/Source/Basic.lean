import Brisk.Position

/-! # Source text as a list of placed pieces

A source is laid out before anything is read from it. Its lines have been decoded, every line break
has become one piece, whatever its style, and every piece knows where it stands. A line that is not
valid UTF-8 has become a single piece that stands for no character: reading it is an error, once,
and reading goes on with the following line.

Beyond the last piece lies the edge of the source. There reading either ends or, when the source
itself fails, reports the same failure for ever.

Since positions are part of the pieces, what is left to read is always a suffix of the list that
was laid out, and reading a source is a matter of lists alone.
-/

namespace Brisk

/-- The styles in which a line can be broken. -/
inductive LineBreak where
  | lineFeed
  | carriageReturn
  | both
  deriving DecidableEq, Repr

/-- The character with which a line break starts. -/
def LineBreak.first : LineBreak → Char
  | .lineFeed => '\n'
  | .carriageReturn | .both => '\r'

/-- What a source is made of. -/
inductive Piece where
  /-- A character that breaks no line. -/
  | char (c : Char)
  /-- A line break, in any of its styles. -/
  | lineBreak (style : LineBreak)
  /-- A whole line that is not valid UTF-8. -/
  | undecodable
  deriving DecidableEq, Repr

namespace Piece

/-- The character that a piece is read as. Every line break is read as a line feed, and an
undecodable line as no character. -/
def char? : Piece → Option Char
  | .char c => some c
  | .lineBreak _ => some '\n'
  | .undecodable => none

/-- The character with which a piece starts, line breaks as they stand in the source. -/
def raw? : Piece → Option Char
  | .char c => some c
  | .lineBreak style => some style.first
  | .undecodable => none

end Piece

/-- The position behind a piece that stands at `p`. An undecodable line takes no room. -/
def Position.after (p : Position) : Piece → Position
  | .char _ => p.right
  | .lineBreak _ => p.down
  | .undecodable => p

/-- A piece together with the place where it stands. -/
structure Placed where
  piece : Piece
  position : Position
  deriving DecidableEq, Repr

/-- Why a source could not be read. -/
inductive ReadError where
  /-- The source failed, and said why. -/
  | io (reason : String)
  /-- A line is not valid UTF-8. The number is that of the line being read. -/
  | invalidUtf8 (line : Nat)
  deriving DecidableEq, Repr

/-- The wording of a read error. -/
def ReadError.message : ReadError → String
  | .io reason => s!"failed to read input: {reason}"
  | .invalidUtf8 line => s!"input is not valid UTF-8 on line {line}"

/-- Where a source stops, and how: without a failure it ends there, with one every attempt to read
further reports it. -/
structure Edge where
  position : Position
  failure : Option ReadError
  deriving DecidableEq, Repr

namespace Edge

/-- Reading at the edge yields `a` where the source ends, and the failure where it fails. -/
def close {α : Type} (edge : Edge) (a : α) : Except ReadError α :=
  match edge.failure with
  | none => .ok a
  | some e => .error e

/-- The next character as it stands in the source, if there is one. Nothing is consumed, except
that an undecodable line is dropped by the error that reports it. -/
def peek (edge : Edge) : List Placed → Except ReadError (Option Char) × List Placed
  | [] => (edge.close none, [])
  | p :: rest =>
    match p.piece.raw? with
    | some c => (.ok (some c), p :: rest)
    | none => (.error (.invalidUtf8 p.position.line), rest)

/-- Consumes the next character, if there is one. Line breaks are read as line feeds, and an
undecodable line is dropped by the error that reports it. -/
def bump (edge : Edge) : List Placed → Except ReadError (Option Char) × List Placed
  | [] => (edge.close none, [])
  | p :: rest =>
    match p.piece.char? with
    | some c => (.ok (some c), rest)
    | none => (.error (.invalidUtf8 p.position.line), rest)

end Edge

/-- A source: the pieces not yet consumed, and the edge beyond them. -/
structure Source where
  ahead : List Placed
  edge : Edge
  deriving DecidableEq, Repr

namespace Source

/-- The position of the next character to be consumed. -/
def position (src : Source) : Position :=
  match src.ahead with
  | [] => src.edge.position
  | p :: _ => p.position

/-- The next character as it stands in the source, without consuming it. -/
def peek (src : Source) : Except ReadError (Option Char) × Source :=
  let (result, rest) := src.edge.peek src.ahead
  (result, { src with ahead := rest })

/-- Consumes the next character. -/
def bump (src : Source) : Except ReadError (Option Char) × Source :=
  let (result, rest) := src.edge.bump src.ahead
  (result, { src with ahead := rest })

/-- Gives each piece its position, when the first of them stands at `p`. The second component is
the position behind the last one. -/
def place (p : Position) : List Piece → List Placed × Position
  | [] => ([], p)
  | piece :: pieces =>
    let (placed, stop) := place (p.after piece) pieces
    (⟨piece, p⟩ :: placed, stop)

/-- The source that consists of the given pieces. -/
def ofPieces (pieces : List Piece) (failure : Position → Option ReadError) : Source :=
  let (placed, stop) := place .start pieces
  ⟨placed, ⟨stop, failure stop⟩⟩

end Source

end Brisk
