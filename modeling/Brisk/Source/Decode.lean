import Brisk.Source.Basic
import Brisk.Text.Bytes

/-! # Laying out bytes as a source

Bytes are cut into lines, each of which ends behind a line feed byte, and every line is decoded on
its own. So one line that is not valid UTF-8 costs only itself. A source that fails before it ends
loses the line that it was in the middle of.
-/

namespace Brisk

namespace Source

/-- Cuts bytes into lines, each of which keeps the line feed that ends it. Only the last line may
lack one, and no line is empty. -/
def lines : List UInt8 → List (List UInt8)
  | [] => []
  | b :: bytes =>
    if b = 10 then [b] :: lines bytes
    else
      match lines bytes with
      | [] => [[b]]
      | line :: more => (b :: line) :: more

/-- A line is complete when a line feed ends it. -/
def isComplete (line : List UInt8) : Bool :=
  line.getLast? == some 10

/-- The pieces of a decoded text: a carriage return and the line feed behind it are one break. -/
def piecesOfChars : List Char → List Piece
  | [] => []
  | '\r' :: '\n' :: cs => .lineBreak .both :: piecesOfChars cs
  | c :: cs =>
    (if c = '\r' then .lineBreak .carriageReturn
      else if c = '\n' then .lineBreak .lineFeed
      else .char c) :: piecesOfChars cs

/-- The pieces of one line of bytes. -/
def piecesOfLine (line : List UInt8) : List Piece :=
  match Text.ofBytes? line with
  | some s => piecesOfChars s.toList
  | none => [.undecodable]

/-- How the bytes of a source stop. -/
inductive Ending where
  /-- The source ends behind the last byte. -/
  | endOfFile
  /-- Every read behind the last byte fails for this reason. -/
  | failing (reason : String)
  /-- Every read behind the last byte is reported as invalid UTF-8. -/
  | garbled
  deriving DecidableEq, Repr

namespace Ending

/-- What is reported behind the last byte when that stands at `stop`. -/
def failure (stop : Position) : Ending → Option ReadError
  | .endOfFile => none
  | .failing reason => some (.io reason)
  | .garbled => some (.invalidUtf8 stop.line)

/-- The lines that are delivered: all of them when the source ends, and the complete ones when it
fails. -/
def delivered (lines : List (List UInt8)) : Ending → List (List UInt8)
  | .endOfFile => lines
  | .failing _ | .garbled => lines.filter isComplete

end Ending

/-- Lays out bytes as a source. -/
def ofBytes (bytes : List UInt8) (ending : Ending) : Source :=
  ofPieces ((ending.delivered (lines bytes)).flatMap piecesOfLine) (ending.failure ·)

/-- Lays out a string as a source that ends behind it. -/
def ofString (s : String) : Source :=
  ofPieces (piecesOfChars s.toList) fun _ => none

end Source

end Brisk
