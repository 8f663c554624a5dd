import Brisk.Number.Decimal
import Brisk.Position
import Brisk.Text.Quoted

/-! # Tokens

The words of the language: symbols, keywords, names and literals. Every token has a text, which is
how it could stand in a source, and a description, which is how it is called in messages.
-/

namespace Brisk

/-- Operators and punctuation. -/
inductive Symbol where
  | plus
  | minus
  | star
  | slash
  | percent
  | leftParen
  | rightParen
  | leftCurly
  | rightCurly
  | leftBracket
  | rightBracket
  | comma
  | semicolon
  | assign
  | equal
  | bang
  | notEqual
  | less
  | lessEqual
  | greater
  | greaterEqual
  | and
  | or
  | pipe
  | arrow
  | hash
  | dollar
  deriving DecidableEq, Repr

namespace Symbol

/-- How a symbol is written. -/
def text : Symbol → String
  | plus => "+"
  | minus => "-"
  | star => "*"
  | slash => "/"
  | percent => "%"
  | leftParen => "("
  | rightParen => ")"
  | leftCurly => "\x7b"
  | rightCurly => "\x7d"
  | leftBracket => "["
  | rightBracket => "]"
  | comma => ","
  | semicolon => ";"
  | assign => "="
  | equal => "=="
  | bang => "!"
  | notEqual => "!="
  | less => "<"
  | lessEqual => "<="
  | greater => ">"
  | greaterEqual => ">="
  | and => "&&"
  | or => "||"
  | pipe => "|"
  | arrow => "<-"
  | hash => "#"
  | dollar => "$"

/-- The symbol that a single character is. -/
def single? : Char → Option Symbol
  | '+' => some plus
  | '-' => some minus
  | '*' => some star
  | '/' => some slash
  | '%' => some percent
  | '(' => some leftParen
  | ')' => some rightParen
  | '\x7b' => some leftCurly
  | '\x7d' => some rightCurly
  | '[' => some leftBracket
  | ']' => some rightBracket
  | ',' => some comma
  | ';' => some semicolon
  | '=' => some assign
  | '!' => some bang
  | '<' => some less
  | '>' => some greater
  | '|' => some pipe
  | '#' => some hash
  | '$' => some dollar
  | _ => none

/-- The symbol that two characters are together. -/
def pair? : Char → Char → Option Symbol
  | '=', '=' => some equal
  | '!', '=' => some notEqual
  | '<', '=' => some lessEqual
  | '<', '-' => some arrow
  | '>', '=' => some greaterEqual
  | '&', '&' => some and
  | '|', '|' => some or
  | _, _ => none

/-- Whether what a character means depends on the one behind it: it may be the first half of a
symbol, or open a comment. -/
def needsNext (c : Char) : Bool :=
  c == '=' || c == '!' || c == '<' || c == '>' || c == '&' || c == '|' || c == '/'

end Symbol

/-- The types that a value can be cast to. -/
inductive TypeName where
  | int
  | float
  | str
  | bool
  deriving DecidableEq, Repr

/-- How a type is written. -/
def TypeName.text : TypeName → String
  | int => "int"
  | float => "float"
  | str => "str"
  | bool => "bool"

/-- The words that are no identifiers. -/
inductive Keyword where
  | letKey
  | mutKey
  | fnKey
  | whileKey
  | ifKey
  | elseKey
  | returnKey
  /-- One of the two truth values. -/
  | truth (b : Bool)
  /-- The name of a type. -/
  | type (t : TypeName)
  deriving DecidableEq, Repr

namespace Keyword

/-- How a keyword is written. -/
def text : Keyword → String
  | letKey => "let"
  | mutKey => "mut"
  | fnKey => "fn"
  | whileKey => "while"
  | ifKey => "if"
  | elseKey => "else"
  | returnKey => "return"
  | truth b => if b then "true" else "false"
  | type t => t.text

/-- All keywords. -/
def all : List Keyword :=
  [letKey, mutKey, fnKey, whileKey, ifKey, elseKey, returnKey, truth true, truth false, type .int,
    type .float, type .str, type .bool]

/-- The keyword that is written as a given word. -/
def ofString? (word : String) : Option Keyword :=
  all.find? fun k => k.text == word

end Keyword

/-- The words that a source is made of. -/
inductive Token where
  | endOfFile
  | symbol (s : Symbol)
  | keyword (k : Keyword)
  | identifier (name : String)
  | str (s : String)
  | int (n : Int32)
  | float (x : Float)
  deriving DecidableEq

namespace Token

/-- The token of a word: a keyword if it is one, and an identifier otherwise. -/
def ofWord (word : String) : Token :=
  match Keyword.ofString? word with
  | some k => keyword k
  | none => identifier word

/-- A token as it could stand in a source. Numbers and strings are written anew. -/
def text : Token → String
  | endOfFile => "EOF"
  | symbol s => s.text
  | keyword k => k.text
  | identifier name => name
  | str s => Text.quote s
  | int n => Integer.text n
  | float x => Decimal.literal x

/-- What a token is called in a message: tokens of which there is only one by their text, the
others by their kind. -/
def describe : Token → String
  | endOfFile => "end of file"
  | identifier _ => "identifier"
  | str _ => "string literal"
  | int _ => "integer literal"
  | float _ => "float literal"
  | symbol s => "'" ++ s.text ++ "'"
  | keyword k => "'" ++ k.text ++ "'"

end Token

/-- A token together with the position of its first character. -/
structure Lexeme where
  token : Token
  position : Position
  deriving DecidableEq

end Brisk
