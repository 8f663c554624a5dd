import Brisk.Command.Options
import Brisk.Command.Prompt

/-! # Running the command

What the command writes and how it ends, as a function of its arguments, its standard input and the
files that it finds.
-/

namespace Brisk.Command

/-- What the command answers when it is asked for its version. -/
def versionText : String := "brisk 0.1.0\n"

/-- How the command ended. -/
structure Ending where
  code : Nat
  stdout : List UInt8
  stderr : String
  deriving DecidableEq

namespace Ending

/-- The command succeeded. -/
def success (stdout : List UInt8) : Ending := ⟨0, stdout, ""⟩

/-- The command failed. -/
def failure (stdout : List UInt8) (f : Failure) : Ending := ⟨1, stdout, f.text⟩

/-- What the command wrote before. -/
def after (earlier : List UInt8) (ending : Ending) : Ending :=
  { ending with stdout := earlier ++ ending.stdout }

end Ending

/-- What was found where a file was looked for. -/
inductive Found where
  | bytes (content : List UInt8)
  /-- Something that can be opened and not be read. -/
  | unreadable (reason : String)
  /-- Nothing that can be opened. -/
  | nothing (reason : String)
  deriving DecidableEq, Repr

/-- The reason for which a file cannot be opened that does not exist. -/
def noSuchFile : String := "No such file or directory (os error 2)"

/-- The reason for which a directory cannot be read. -/
def isDirectory : String := "Is a directory (os error 21)"

/-- The failure to open a file. -/
def notOpened (name reason : String) : Failure := ⟨s!"failed to open {name}", [reason]⟩

/-- The failure of a source, if it failed. -/
def failure? {α : Type} (result : Except SessionError α) : Option Failure :=
  match result with
  | .ok _ => none
  | .error e => some (.ofError e)

/-- Runs a source, or shows its tree. Returns what was written, and the failure if there was one. -/
def runSource (showTree : Bool) (session : Session) (src : Source) :
    List UInt8 × Option Failure × Session :=
  if showTree then
    match session.parse src with
    | .ok program => (Text.bytes program.dump, none, session)
    | .error e => ([], some (.ofError e), session)
  else
    let (result, session) := session.eval src
    let (written, session) := drain session
    (written, failure? result, session)

/-- The source that was found, or the failure to open it. -/
def Found.source (name : String) : Found → Except Failure Source
  | .bytes content => .ok (.ofBytes content .endOfFile)
  | .unreadable reason => .ok (.ofBytes [] (.failing reason))
  | .nothing reason => .error (notOpened name reason)

/-- Runs a file that was found, or reports that it was not. -/
def runFile (showTree : Bool) (session : Session) (name : String) (found : Found) :
    List UInt8 × Option Failure × Session :=
  match found.source name with
  | .error failure => ([], some failure, session)
  | .ok src =>
    let (written, failure, session) := runSource showTree session src
    (written, failure.map (·.within s!"in {name}"), session)

/-- Runs files in their order, until one of them fails. -/
def runFiles (showTree : Bool) (find : String → Found) (session : Session) :
    List String → Ending
  | [] => .success []
  | name :: names =>
    match runFile showTree session name (find name) with
    | (written, some failure, _) => .failure written failure
    | (written, none, session) => (runFiles showTree find session names).after written

/-- Reads lines at the prompt until there are no more. -/
def runPrompt (showTree : Bool) (session : Session) : List (List UInt8) → Ending
  | [] => .success (Text.bytes prompt)
  | line :: lines =>
    match Text.ofBytes? line with
    | none => .failure (Text.bytes prompt) undecodableLine
    | some s =>
      let (written, session) := respond showTree session s
      (runPrompt showTree session lines).after (Text.bytes prompt ++ written)

/-- The session in which the command runs everything. -/
def Options.session (options : Options) : Session :=
  let depth := options.callDepth.getD Bounds.defaultCallDepth
  .start options.limits (.ofCallDepth depth) .unlimited

/-- Does what the options ask for. -/
def Options.run (options : Options) (find : String → Found) (stdin : List UInt8) : Ending :=
  match options.text, options.files with
  | some text, _ =>
    match runSource options.showTree options.session (.ofString text) with
    | (written, some failure, _) => .failure written failure
    | (written, none, _) => .success written
  | none, [] => runPrompt options.showTree options.session (Source.lines stdin)
  | none, files => runFiles options.showTree find options.session files

/-- What the command says when it is not used as it should be. -/
def usage : String :=
  "Usage: brisk [OPTIONS] [FILES]...\n\n" ++
  "Options:\n" ++
  "  -e, --eval <SOURCE>         Run this source text instead of files\n" ++
  "      --dump-ast              Print the tree instead of evaluating\n" ++
  "      --max-token-length <N>  Longest identifier, string literal or comment accepted\n" ++
  "      --max-nesting <N>       Deepest nesting of expressions and blocks accepted\n" ++
  "      --max-call-depth <N>    Deepest chain of nested function calls\n" ++
  "  -V, --version               Print version\n"

/-- Runs the command. -/
def run (arguments : List String) (find : String → Found) (stdin : List UInt8) : Ending :=
  match Invocation.ofArguments arguments with
  | .version => .success (Text.bytes versionText)
  | .misused => ⟨2, [], usage⟩
  | .run options => options.run find stdin

end Brisk.Command
