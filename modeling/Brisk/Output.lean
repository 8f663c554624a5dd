import Brisk.Text.Bytes

/-! # Output

What a program writes is kept in chunks, one for each line that is printed or traced, together with
where it came from. The output may have room for a limited number of bytes only. Then the write that
exceeds it is cut at exactly that byte, and fails.
-/

namespace Brisk

/-- What a chunk of output was written by. -/
inductive Origin where
  | print
  | callTrace
  | returnTrace
  deriving DecidableEq, Repr

/-- The bytes of one write. -/
structure Chunk where
  origin : Origin
  bytes : List UInt8
  deriving DecidableEq

/-- What has been written, and the number of bytes that can still be written, if that is limited. -/
structure Output where
  written : Array Chunk
  room : Option Nat
  deriving DecidableEq

namespace Output

/-- Nothing is written, and everything can be. -/
def unlimited : Output := ⟨#[], none⟩

/-- Nothing is written, and at most the given number of bytes can be. -/
def limited (room : Nat) : Output := ⟨#[], some room⟩

/-- The reason for which a write fails when there is no room for it. -/
def fullReason : String := "sink full"

/-- Writes a text, as far as there is room for it. The first component says whether there was. -/
def write (out : Output) (origin : Origin) (text : String) : Bool × Output :=
  let bytes := Text.bytes text
  match out.room with
  | none => (true, { out with written := out.written.push ⟨origin, bytes⟩ })
  | some room =>
    if bytes.length ≤ room then
      (true, ⟨out.written.push ⟨origin, bytes⟩, some (room - bytes.length)⟩)
    else (false, ⟨out.written.push ⟨origin, bytes.take room⟩, some 0⟩)

/-- All bytes that have been written, in their order. -/
def bytes (out : Output) : List UInt8 :=
  out.written.toList.flatMap (·.bytes)

/-- Forgets what has been written. -/
def clear (out : Output) : Output := { out with written := #[] }

end Output

end Brisk
