import Brisk.Command.Report
import Brisk.Source.Decode

/-! # The prompt

Lines are read and run one after another in one session. Each is answered with the value that it
has, if it has one, or with an error, which is marked below the line when its place is known.
-/

namespace Brisk.Command

/-- What is written in front of every line that is read. -/
def prompt : String := "> "

/-- The lines that report an error. A caret stands below the column of an error on the first line,
which was typed behind the prompt. -/
def errorLines (e : SessionError) : List String :=
  match e.position? with
  | some position =>
    if position.line = 1 then
      [String.ofList (List.replicate (position.column + 1) ' ' ++ ['^']), e.message]
    else [e.message]
  | none => [e.message]

/-- Lines as text, each ended by a line feed. -/
def unlines (lines : List String) : String := String.join (lines.map (· ++ "\n"))

/-- The answer to a value. There is nothing to say about the value that stands for none. -/
def valueReply : Value → String
  | .unit => ""
  | v => unlines [v.text]

/-- The answer to a source: its tree or its value, or an error. -/
def reply (showTree : Bool) (session : Session) (src : Source) : String × Session :=
  if showTree then
    match session.parse src with
    | .ok program => (program.dump, session)
    | .error e => (unlines (errorLines e), session)
  else
    match session.eval src with
    | (.ok v, session) => (valueReply v, session)
    | (.error e, session) => (unlines (errorLines e), session)

/-- Takes what the session has written. -/
def drain (session : Session) : List UInt8 × Session := (session.written, session.clearOutput)

/-- Runs a line and returns what is written for it: what the line itself writes, and the answer to
it. -/
def respond (showTree : Bool) (session : Session) (line : String) : List UInt8 × Session :=
  let (answer, session) := reply showTree session (.ofString line)
  let (written, session) := drain session
  (written ++ Text.bytes answer, session)

/-- The failure of a line that is not valid UTF-8. -/
def undecodableLine : Failure := ⟨"stream did not contain valid UTF-8", []⟩

end Brisk.Command
