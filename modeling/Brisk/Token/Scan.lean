import Brisk.Limits
import Brisk.Source.Basic
import Brisk.Text.Blank
import Brisk.Token.Basic
import Brisk.Token.Fault

/-! # Scanning one token

Blank characters and comments are skipped, then one token is taken, as long as it can be: symbols of
two characters before those of one, and words and numbers to their last character.

A scan returns what it found, or what was wrong, together with the pieces that it did not consume.
After an error these are the pieces behind the character at which the error showed, so scanning can
go on there. Since a character that is looked at and not consumed may lie on a line that cannot be
decoded, or beyond the edge of a failing source, looking ahead can be an error too.
-/

namespace Brisk.Scan

/-- What a scan found, or what was wrong, and the pieces that it did not consume. -/
abbrev Outcome (α : Type) := Except LexError α × List Placed

/-- The error of a line that cannot be decoded. -/
def undecodable (p : Placed) : LexError :=
  .read (.invalidUtf8 p.position.line)

/-- The outcome where no pieces are left: the source's failure, or what the end of the source means
here. -/
def atEdge {α : Type} (edge : Edge) (atEnd : Except LexError α) : Outcome α :=
  match edge.failure with
  | some cause => (.error (.read cause), [])
  | none => (atEnd, [])

/-- Looks at the next character and hands it on, with the pieces that start with it. -/
def withNext {α : Type} (edge : Edge) (rest : List Placed)
    (go : Option Char → List Placed → Outcome α) : Outcome α :=
  match edge.peek rest with
  | (.error cause, rest) => (.error (.read cause), rest)
  | (.ok c, rest) => go c rest

mutual

/-- Skips blank characters and comments, and consumes the first character behind them. -/
def skip (limits : Limits) (edge : Edge) : List Placed → Outcome (Option (Char × Position))
  | [] => atEdge edge (.ok none)
  | p :: rest =>
    match p.piece with
    | .undecodable => (.error (undecodable p), rest)
    | .lineBreak _ => skip limits edge rest
    | .char c =>
      if Text.isBlank c then skip limits edge rest
      else if c = '/' then
        match rest with
        | [] => (.ok (some (c, p.position)), [])
        | q :: more =>
          if q.piece = .char '/' then skipLine limits edge p.position 0 more
          else if q.piece = .char '*' then skipBlock limits edge p.position 0 more
          else (.ok (some (c, p.position)), rest)
      else (.ok (some (c, p.position)), rest)

/-- Skips the rest of a comment that ends with its line, `length` characters of which are behind,
and goes on behind it. -/
def skipLine (limits : Limits) (edge : Edge) (start : Position) (length : Nat) :
    List Placed → Outcome (Option (Char × Position))
  | [] => atEdge edge (.ok none)
  | p :: rest =>
    match p.piece with
    | .undecodable => (.error (undecodable p), rest)
    | .lineBreak _ => skip limits edge rest
    | .char _ =>
      if limits.comment < length + 1 then
        (.error (.invalid start (.commentTooLong limits.comment)), rest)
      else skipLine limits edge start (length + 1) rest

/-- Skips the rest of a comment that ends with a star and a slash, `length` characters of which are
behind, and goes on behind it. -/
def skipBlock (limits : Limits) (edge : Edge) (start : Position) (length : Nat) :
    List Placed → Outcome (Option (Char × Position))
  | [] => atEdge edge (.error (.invalid start .unterminatedComment))
  | p :: rest =>
    if p.piece = .undecodable then (.error (undecodable p), rest)
    else if p.piece = .char '*' then
      match rest with
      | [] =>
        if limits.comment < length + 1 then
          atEdge edge (.error (.invalid start (.commentTooLong limits.comment)))
        else atEdge edge (.error (.invalid start .unterminatedComment))
      | q :: more =>
        if q.piece = .undecodable then (.error (undecodable q), more)
        else if q.piece = .char '/' then skip limits edge more
        else if limits.comment < length + 1 then
          (.error (.invalid start (.commentTooLong limits.comment)), q :: more)
        else skipBlock limits edge start (length + 1) (q :: more)
    else if limits.comment < length + 1 then
      (.error (.invalid start (.commentTooLong limits.comment)), rest)
    else skipBlock limits edge start (length + 1) rest

end

/-- The longest run of characters of a class, and the pieces behind it. -/
def run (ofClass : Char → Bool) : List Placed → List Char × List Placed
  | [] => ([], [])
  | p :: rest =>
    match p.piece with
    | .char c =>
      if ofClass c then
        let (cs, more) := run ofClass rest
        (c :: cs, more)
      else ([], p :: rest)
    | _ => ([], p :: rest)

/-- Whether a word can start with a character. -/
def startsWord (c : Char) : Bool := c.isAlpha || c == '_'

/-- Whether a word can go on with a character. -/
def continuesWord (c : Char) : Bool := c.isAlphanum || c == '_'

/-- A word whose first character is `c`. The bound is checked with every further character, so a
word of one character is never too long. -/
def word (limits : Limits) (edge : Edge) (start : Position) (c : Char) (rest : List Placed) :
    Outcome Token :=
  let (cs, more) := run continuesWord rest
  if cs ≠ [] ∧ limits.identifier < cs.length + 1 then
    (.error (.invalid start (.identifierTooLong limits.identifier)),
      rest.drop (max 1 limits.identifier))
  else
    withNext edge more fun _ more => (.ok (.ofWord (String.ofList (c :: cs))), more)

/-- The integer literal that consists of the given digits. -/
def integer (start : Position) (ds : List Char) : Except LexError Token :=
  match Integer.ofInt? (Integer.ofDigits ds) with
  | some n => .ok (.int n)
  | none => .error (.invalid start (.integerOutOfRange (String.ofList ds)))

/-- A number whose first digit is `c`: an integer, or a float if a point follows the digits. -/
def number (edge : Edge) (start : Position) (c : Char) (rest : List Placed) : Outcome Token :=
  let (ds, more) := run Char.isDigit rest
  withNext edge more fun next more =>
    if next = some '.' then
      let (fraction, more) := run Char.isDigit (more.drop 1)
      withNext edge more fun _ more =>
        (.ok (.float (Decimal.ofDigits false (c :: ds) fraction 0)), more)
    else (integer start (c :: ds), more)

/-- The character that a backslash and the character behind it stand for in a string literal. -/
def unescape? (c : Char) : Option Char :=
  if c = 'n' then some '\n'
  else if c = 'r' then some '\r'
  else if c = 't' then some '\t'
  else if c = '\\' then some '\\'
  else if c = '"' then some '"'
  else none

/-- The rest of a string literal, of which the characters `content`, the last one first, are
behind. -/
def string (limits : Limits) (edge : Edge) (start : Position) (length : Nat) (content : List Char) :
    List Placed → Outcome Token
  | [] => atEdge edge (.error (.invalid start .unterminatedString))
  | p :: rest =>
    match p.piece.char? with
    | none => (.error (undecodable p), rest)
    | some c =>
      if c = '"' then (.ok (.str (String.ofList content.reverse)), rest)
      else if c = '\\' then
        match rest with
        | [] => atEdge edge (.error (.invalid start .unterminatedString))
        | q :: more =>
          match q.piece.char? with
          | none => (.error (undecodable q), more)
          | some e =>
            match unescape? e with
            | none => (.error (.invalid start (.invalidEscape e)), more)
            | some d =>
              if limits.string < length + 1 then
                (.error (.invalid start (.stringTooLong limits.string)), more)
              else string limits edge start (length + 1) (d :: content) more
      else if limits.string < length + 1 then
        (.error (.invalid start (.stringTooLong limits.string)), rest)
      else string limits edge start (length + 1) (c :: content) rest

/-- The symbol that is the single character `c`. -/
def single (start : Position) (c : Char) : Except LexError Token :=
  match Symbol.single? c with
  | some s => .ok (.symbol s)
  | none => .error (.invalid start (.notAToken c))

/-- A symbol whose first character is `c`. -/
def symbol (edge : Edge) (start : Position) (c : Char) (rest : List Placed) : Outcome Token :=
  if Symbol.needsNext c then
    withNext edge rest fun next rest =>
      match next.bind (Symbol.pair? c) with
      | some s => (.ok (.symbol s), rest.drop 1)
      | none => (single start c, rest)
  else (single start c, rest)

/-- The token that starts with the character `c`, which has been consumed. -/
def token (limits : Limits) (edge : Edge) (start : Position) (c : Char) (rest : List Placed) :
    Outcome Token :=
  if c = '"' then string limits edge start 0 [] rest
  else if c.isDigit then number edge start c rest
  else if startsWord c then word limits edge start c rest
  else symbol edge start c rest

/-- The next token, with the position of its first character. At the end of the source it is the
token for that. -/
def lexeme (limits : Limits) (edge : Edge) (rest : List Placed) : Outcome Lexeme :=
  match skip limits edge rest with
  | (.error e, more) => (.error e, more)
  | (.ok none, more) => (.ok ⟨.endOfFile, edge.position⟩, more)
  | (.ok (some (c, start)), more) =>
    let (result, more) := token limits edge start c more
    (result.map (⟨·, start⟩), more)

end Brisk.Scan
