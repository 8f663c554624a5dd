import Brisk.Evaluation.Call
import Brisk.Parse.Program
import Brisk.Tree.Outline

/-! # Sessions

A session runs sources one after another. What one of them declares at its top is there for those
that follow, also when it fails later on.
-/

namespace Brisk

/-- Why a source had no value. -/
inductive SessionError where
  | parse (cause : ParseError)
  | runtime (cause : RuntimeError)
  /-- A loop ran out of rounds. -/
  | exhausted
  deriving DecidableEq

namespace SessionError

/-- The wording of an error. -/
def message : SessionError → String
  | parse cause => cause.message
  | runtime cause => s!"runtime error: {cause.message}"
  | exhausted => "loop ran out of rounds"

/-- Where in the source the error is. Errors of evaluation have no place. -/
def position? : SessionError → Option Position
  | parse cause => cause.position?
  | runtime _ | exhausted => none

/-- The error of an evaluation that came to no result. -/
def ofStop : Stop → SessionError
  | .error cause => runtime cause
  | .exhausted => exhausted

end SessionError

/-- A session: the limits that its sources have to keep, the bounds on their evaluation, and what
they have declared and written so far. -/
structure Session where
  limits : Limits
  bounds : Bounds
  machine : Machine

namespace Session

/-- A session in which nothing has been run. -/
def start (limits : Limits) (bounds : Bounds) (output : Output) : Session :=
  ⟨limits, bounds, ⟨.initial, output, 0⟩⟩

/-- Reads a program without running it. -/
def parse (session : Session) (src : Source) : Except SessionError Program :=
  (Program.parse session.limits src).mapError .parse

/-- Evaluates something in a session. -/
def perform {α : Type} (session : Session) (action : Eval α) : Except SessionError α × Session :=
  match action session.machine with
  | .ok a machine => (.ok a, { session with machine })
  | .error stop machine => (.error (.ofStop stop), { session with machine })

/-- Reads a program and evaluates what is made of it. -/
def runWith {α : Type} (session : Session) (src : Source) (action : Program → Eval α) :
    Except SessionError α × Session :=
  match session.parse src with
  | .error e => (.error e, session)
  | .ok program => session.perform (action program)

/-- Runs a source in the scope of the session. What it declares stays. -/
def eval (session : Session) (src : Source) : Except SessionError Value × Session :=
  session.runWith src session.bounds.runInSession

/-- Runs a source in a scope of its own. What it declares goes with it. -/
def run (session : Session) (src : Source) : Except SessionError Value × Session :=
  session.runWith src session.bounds.run

/-- What the session has written. -/
def written (session : Session) : List UInt8 := session.machine.output.bytes

/-- Forgets what the session has written. -/
def clearOutput (session : Session) : Session :=
  { session with machine := { session.machine with output := session.machine.output.clear } }

end Session

end Brisk
