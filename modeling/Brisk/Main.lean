import Brisk.Command.Run

/-! # The command line

The only module that reads and writes. Files are opened when their turn comes, and at the prompt
every line is answered before the next one is read.
-/

namespace Brisk.Command

/-- Writes bytes to standard output at once. -/
def emit (bytes : List UInt8) : IO Unit := do
  let out ← IO.getStdout
  out.write ⟨bytes.toArray⟩
  out.flush

/-- Reports a failure and returns the exit code for it. -/
def fail (failure : Failure) : IO UInt32 := do
  (← IO.getStderr).putStr failure.text
  return 1

/-- Looks for a file. -/
def findFile (name : String) : IO Found := do
  try
    return .bytes (← IO.FS.readBinFile name).toList
  catch e =>
    match e with
    | .noFileOrDirectory .. => return .nothing noSuchFile
    | .inappropriateType .. => return .unreadable isDirectory
    | e => return .nothing (toString e)

/-- Runs files in their order, until one of them fails. -/
def serveFiles (showTree : Bool) (session : Session) : List String → IO UInt32
  | [] => return 0
  | name :: names => do
    let (written, failure, session) := runFile showTree session name (← findFile name)
    emit written
    match failure with
    | some failure => fail failure
    | none => serveFiles showTree session names

/-- Reads the bytes of a line, up to and including the line feed that ends it. -/
partial def readLine (input : IO.FS.Stream) (line : ByteArray) : IO ByteArray := do
  let bytes ← input.read 1
  if bytes.isEmpty || bytes.get! 0 == 10 then return line ++ bytes
  else readLine input (line ++ bytes)

/-- Reads and answers lines at the prompt until there are no more. -/
partial def servePrompt (showTree : Bool) (session : Session) : IO UInt32 := do
  emit (Text.bytes prompt)
  let line ← readLine (← IO.getStdin) .empty
  if line.isEmpty then return 0
  match String.fromUTF8? line with
  | none => fail undecodableLine
  | some s =>
    let (written, session) := respond showTree session s
    emit written
    servePrompt showTree session

/-- Does what the options ask for. -/
def serve (options : Options) : IO UInt32 := do
  match options.text, options.files with
  | some text, _ =>
    let (written, failure, _) := runSource options.showTree options.session (.ofString text)
    emit written
    match failure with
    | some failure => fail failure
    | none => return 0
  | none, [] => servePrompt options.showTree options.session
  | none, files => serveFiles options.showTree options.session files

/-- Does what the arguments mean. -/
def answer : Invocation → IO UInt32
  | .version => do
    emit (Text.bytes versionText)
    return 0
  | .misused => do
    (← IO.getStderr).putStr usage
    return 2
  | .run options => serve options

end Brisk.Command

/-- Runs the command with the given arguments. -/
def main (arguments : List String) : IO UInt32 :=
  Brisk.Command.answer (.ofArguments arguments)
