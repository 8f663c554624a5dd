import Brisk.Environment
import Brisk.Output
import Brisk.Value.Cast
import Brisk.Value.Operation

/-! # Evaluation

Expressions and statements are evaluated in an environment, and calls may write to an output. An
evaluation ends with a result or with an error, and either way leaves an environment and an output.

Evaluating an expression or a statement recurses on its tree. Two things do not follow the tree. A
call evaluates the body of a function: calls in progress are bounded, and calling recurses on the
number of calls that may still be nested. A loop may never end: loops are given a number of rounds,
and running out of them is an outcome of its own, which is neither a result nor an error. An
evaluation that ends does not depend on that number, as long as it is large enough.
-/

namespace Brisk

/-- What evaluation works on. -/
structure Machine where
  environment : Environment
  output : Output
  /-- The number of calls in progress, those of the halves of a composition included. -/
  depth : Nat

/-- Why an evaluation did not come to a result. -/
inductive Stop where
  | error (cause : RuntimeError)
  /-- A loop ran out of rounds. -/
  | exhausted
  deriving DecidableEq, Repr

/-- Evaluations. -/
abbrev Eval := EStateM Stop Machine

/-- How a statement ended, and with which value. -/
inductive Flow where
  /-- Execution goes on with the next statement. -/
  | normal (v : Value)
  /-- The function or program around the statement is left. -/
  | leave (v : Value)

namespace Flow

/-- The value of a program. -/
def value : Flow → Value
  | normal v | leave v => v

/-- The value of a function's body: only leaving it gives one. -/
def returned : Flow → Value
  | normal _ => .unit
  | leave v => v

/-- A statement without a value of its own, unless it is left. -/
def settle : Flow → Flow
  | normal _ => normal .unit
  | leave v => leave v

end Flow

namespace Eval

/-- Fails with an error. -/
def fail {α : Type} (e : RuntimeError) : Eval α := throw (.error e)

/-- Uses a result that may be an error. -/
def ofExcept {α : Type} : Except RuntimeError α → Eval α
  | .ok a => pure a
  | .error e => fail e

/-- Evaluates in a scope of its own, which is closed again however the evaluation ends. -/
def inScope {α : Type} (body : Eval α) : Eval α := fun m =>
  match body { m with environment := m.environment.push } with
  | .ok a m => .ok a { m with environment := m.environment.pop }
  | .error e m => .error e { m with environment := m.environment.pop }

/-- Evaluates the body of a call, which is in progress until the evaluation ends, however it
ends. -/
def inCall {α : Type} (body : Eval α) : Eval α := fun m =>
  match body { m with depth := m.depth + 1 } with
  | .ok a m => .ok a { m with depth := m.depth - 1 }
  | .error e m => .error e { m with depth := m.depth - 1 }

/-- The value of a name. -/
def lookup (name : String) : Eval Value := fun m =>
  match m.environment.lookup name with
  | some v => .ok v m
  | none => .error (.error (.unbound name)) m

/-- Binds a name in the innermost scope. -/
def declare (name : String) (value : Value) (mutable : Bool) : Eval Unit := fun m =>
  match m.environment.declare? name value mutable with
  | some environment => .ok () { m with environment }
  | none => .error (.error (.redeclared name)) m

/-- Gives a name another value. -/
def assign (name : String) (value : Value) : Eval Unit := fun m =>
  match m.environment.assign name value with
  | .ok environment => .ok () { m with environment }
  | .error .unbound => .error (.error (.unbound name)) m
  | .error .immutable => .error (.error (.immutable name)) m

/-- Writes a line. -/
def writeLine (origin : Origin) (line : String) : Eval Unit := fun m =>
  let (done, output) := m.output.write origin (line ++ "\n")
  if done then .ok () { m with output }
  else .error (.error (.io Output.fullReason)) { m with output }

/-- Binds parameters to arguments. -/
def bindAll : List Parameter → List Value → Eval Unit
  | p :: ps, v :: vs => do
    declare p.name v p.mutable
    bindAll ps vs
  | _, _ => return ()

/-- The truth value of the condition of a statement. -/
def truth (statement : Keyword) : Value → Eval Bool
  | .bool b => return b
  | v => fail (.expectedBool statement v.kind)

/-- Executes a body as long as a test holds, for at most the given number of rounds. -/
def repeatWhile (test : Eval Bool) (body : Eval Flow) : Nat → Eval Flow
  | 0 => throw .exhausted
  | rounds + 1 => do
    if ← test then
      match ← body with
      | .leave v => return .leave v
      | .normal _ => repeatWhile test body rounds
    else return .normal .unit

/-- Calls of functions, which may be traced. -/
abbrev Call := Bool → Function → List Value → Eval Value

end Eval

end Brisk
