import Brisk.Source.Basic

/-! # Errors in the words of a source

A source fails to fall into tokens when it cannot be read or when it has a fault: something that is
no token, that does not end, or that is too long. Faults are reported at the first character of the
token or comment that has them.
-/

namespace Brisk

/-- What can be wrong with a token or a comment. -/
inductive LexFault where
  | identifierTooLong (max : Nat)
  | stringTooLong (max : Nat)
  | commentTooLong (max : Nat)
  | unterminatedString
  | unterminatedComment
  /-- A backslash in a string literal is followed by a character that makes no escape sequence. -/
  | invalidEscape (c : Char)
  /-- The digits of an integer literal whose value is too large. -/
  | integerOutOfRange (digits : String)
  /-- A character that starts no token. -/
  | notAToken (c : Char)
  deriving DecidableEq, Repr

/-- The wording of a fault. -/
def LexFault.message : LexFault → String
  | identifierTooLong max => s!"identifier longer than {max} characters"
  | stringTooLong max => s!"string literal longer than {max} characters"
  | commentTooLong max => s!"comment longer than {max} characters"
  | unterminatedString => "unterminated string literal"
  | unterminatedComment => "unterminated comment"
  | invalidEscape c => "invalid escape sequence '\\" ++ c.toString ++ "'"
  | integerOutOfRange digits => s!"integer literal {digits} does not fit in 32 bits"
  | notAToken c => "not a token: '" ++ c.toString ++ "'"

/-- Why no token could be delivered. -/
inductive LexError where
  | read (cause : ReadError)
  | invalid (position : Position) (fault : LexFault)
  deriving DecidableEq, Repr

namespace LexError

/-- The wording of an error. -/
def message : LexError → String
  | read cause => s!"read error: {cause.message}"
  | invalid position fault => s!"lex error: {position.text}: {fault.message}"

/-- Where the error is, unless the source could not be read. -/
def position? : LexError → Option Position
  | read _ => none
  | invalid position _ => some position

end LexError

end Brisk
