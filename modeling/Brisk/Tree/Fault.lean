import Brisk.Token.Basic
import Brisk.Token.Fault

/-! # Errors in the structure of a program

A list of tokens fails to be a program when it has a fault at one of its tokens, or when there is an
error in the place of a token.
-/

namespace Brisk

/-- What can be wrong with a token in its place. -/
inductive ParseFault where
  /-- Something else was expected. -/
  | unexpected (expected : String) (found : Token)
  | expectedExpression (found : Token)
  /-- The parentheses of a statement that needs a condition start with no expression. -/
  | expectedPredicate (statement : Keyword)
  | expectedParameter (found : Token)
  | expectedType (found : Token)
  /-- Only a name can be assigned to. -/
  | expectedTarget
  | duplicateParameter (name : String)
  | nestingTooDeep (max : Nat)
  deriving DecidableEq

/-- The wording of a fault. -/
def ParseFault.message : ParseFault → String
  | unexpected expected found => s!"unexpected {found.describe}, expected {expected}"
  | expectedExpression found => s!"expected expression, found {found.describe}"
  | expectedPredicate statement => s!"expected predicate in {statement.text} statement"
  | expectedParameter found => s!"expected parameter, found {found.describe}"
  | expectedType found => s!"expected type (int, float, str or bool), found {found.describe}"
  | expectedTarget => "expected identifier on the left of '='"
  | duplicateParameter name => s!"parameter {name} declared twice"
  | nestingTooDeep max => s!"nesting deeper than {max} levels"

/-- Why a source is no program. -/
inductive ParseError where
  | lex (cause : LexError)
  | invalid (position : Position) (fault : ParseFault)
  deriving DecidableEq

namespace ParseError

/-- The wording of an error. -/
def message : ParseError → String
  | lex cause => cause.message
  | invalid position fault => s!"parse error: {position.text}: {fault.message}"

/-- Where the error is, unless the source could not be read. -/
def position? : ParseError → Option Position
  | lex cause => cause.position?
  | invalid position _ => some position

end ParseError

end Brisk
