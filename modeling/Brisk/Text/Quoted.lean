import Brisk.Text.Plain

/-! # Quoted text

Text is shown between double quotes. A character that would end the quotation, that cannot be shown
as itself, or that starts an escape is written as an escape sequence.
-/

namespace Brisk.Text

/-- The letter that stands behind the backslash in the escape sequence of a character, for the
characters that have one of their own. -/
def escapeLetter? (c : Char) : Option Char :=
  if c = '\x00' then some '0'
  else if c = '\t' then some 't'
  else if c = '\r' then some 'r'
  else if c = '\n' then some 'n'
  else if c = '"' then some '"'
  else if c = '\\' then some '\\'
  else none

/-- The escape sequence that names a character by its code point, in hexadecimal without leading
zeros. -/
def codePoint (c : Char) : List Char :=
  ['\\', 'u', '\x7b'] ++ Nat.toDigits 16 c.toNat ++ ['\x7d']

/-- A character as it is written between quotes. -/
def quoteChar (c : Char) : List Char :=
  match escapeLetter? c with
  | some letter => ['\\', letter]
  | none => if isPlain c then [c] else codePoint c

/-- Text as it is written between quotes, quotes included. -/
def quote (s : String) : String :=
  String.ofList (['"'] ++ s.toList.flatMap quoteChar ++ ['"'])

end Brisk.Text
