import Brisk.Session

/-! # Reports of failures

A failure is reported with its causes: first what failed, then what made it fail, and so on. A cause
of more than one line is indented as a whole.
-/

namespace Brisk.Command

/-- A failure: what failed, and its causes from the nearest on. -/
structure Failure where
  summary : String
  causes : List String := []
  deriving DecidableEq, Repr

namespace Failure

/-- The failure that an error of a session is. -/
def ofError (e : SessionError) : Failure where
  summary := e.message
  causes :=
    match e with
    | .parse (.lex (.read cause)) =>
      cause.message :: match cause with
        | .io reason => [reason]
        | .invalidUtf8 _ => []
    | .runtime cause =>
      cause.message :: match cause with
        | .io reason => [reason]
        | _ => []
    | _ => []

/-- The failure of something that failed because something else did. -/
def within (cause : Failure) (summary : String) : Failure :=
  ⟨summary, cause.summary :: cause.causes⟩

/-- A text with every line but the first indented. -/
def hang (indent : String) (s : String) : String :=
  String.ofList (s.toList.flatMap fun c => if c = '\n' then '\n' :: indent.toList else [c])

/-- The lines of the causes. They are numbered if there is more than one. -/
def causeLines : List String → List String
  | [cause] => ["    " ++ hang "    " cause]
  | causes => causes.mapIdx fun n cause =>
    let number := toString n
    String.ofList (List.replicate (5 - number.length) ' ') ++ number ++ ": " ++ hang "       " cause

/-- The text that reports a failure. -/
def text (failure : Failure) : String :=
  let causes := if failure.causes.isEmpty then [] else
    "" :: "Caused by:" :: causeLines failure.causes
  String.join ((("Error: " ++ failure.summary) :: causes).map (· ++ "\n"))

end Failure

end Brisk.Command
