import Brisk.Evaluation.Tree

/-! # Calls and programs

A call evaluates the body of a function one call deeper. The number of calls that may be in progress
at the same time is bounded, those of the halves of a composition included. With calls at hand,
whole programs can be evaluated.
-/

namespace Brisk

open Eval

namespace Function

/-- The line that reports a call: the parameters with their arguments, in the order in which they
are declared. -/
def callLine (f : Function) (arguments : List Value) : String :=
  match List.zipWith (fun p (v : Value) => s!"{p.name} = {v.text}") f.parameters arguments with
  | [] => "[debug] call:"
  | bindings => "[debug] call: " ++ ", ".intercalate bindings

/-- The line that reports the result of a call. -/
def returnLine (result : Value) : String := s!"[debug] return: {result.text}"

/-- Evaluates the body of a function, in which `call` calls functions. -/
def enter (call : Call) (rounds : Nat) (arguments : List Value) : Function → Eval Value
  | print => do
    arguments.forM fun v => writeLine .print v.text
    return .unit
  | user parameters body => inScope do
    bindAll parameters arguments
    let flow ← Stmt.execAll call rounds .unit body
    return flow.returned
  | composed first second => do
    let v ← call false first arguments
    call false second [v]

end Function

/-- Bounds on evaluation: the number of calls that may be in progress at the same time, and the
number of rounds that a loop is given. -/
structure Bounds where
  callDepth : Nat
  rounds : Nat
  deriving DecidableEq, Repr

namespace Bounds

/-- The number of nested calls that is accepted unless something else is asked for. -/
def defaultCallDepth : Nat := 128

/-- More rounds than any loop can take in practice. -/
def ampleRounds : Nat := Nat.pow 2 64

/-- The given call depth, and ample rounds. -/
def ofCallDepth (callDepth : Nat) : Bounds := ⟨callDepth, ampleRounds⟩

end Bounds

/-- Evaluates the body of a function and, if the call is traced, reports the call before and its
result after. -/
def Function.enterTraced (call : Call) (rounds : Nat) (traced : Bool) (f : Function)
    (arguments : List Value) : Eval Value :=
  if traced then do
    writeLine .callTrace (f.callLine arguments)
    let result ← f.enter call rounds arguments
    writeLine .returnTrace (returnLine result)
    return result
  else f.enter call rounds arguments

/-- Calls a function when as many calls as given may still be nested. -/
def Function.call (bounds : Bounds) : Nat → Call
  | 0, _, f, arguments =>
    if arguments.length = f.arity then fail (.callDepthExceeded bounds.callDepth)
    else fail (.arityMismatch f.arity arguments.length)
  | depth + 1, traced, f, arguments =>
    if arguments.length = f.arity then
      inCall (f.enterTraced (Function.call bounds depth) bounds.rounds traced arguments)
    else fail (.arityMismatch f.arity arguments.length)

namespace Bounds

/-- Calls, as deep as the number of those in progress leaves room for. -/
def call (bounds : Bounds) : Call := fun traced f arguments m =>
  Function.call bounds (bounds.callDepth - m.depth) traced f arguments m

/-- Evaluates an expression. -/
def expression (bounds : Bounds) (e : Expr) : Eval Value := e.eval bounds.call bounds.rounds

/-- Executes a statement. -/
def statement (bounds : Bounds) (s : Stmt) : Eval Flow := s.exec bounds.call bounds.rounds

/-- Executes statements in the scope that is innermost. -/
def statements (bounds : Bounds) (ss : List Stmt) : Eval Flow :=
  Stmt.execAll bounds.call bounds.rounds .unit ss

/-- Executes statements in a scope of their own. -/
def block (bounds : Bounds) (ss : List Stmt) : Eval Flow := inScope (bounds.statements ss)

/-- Executes a program in a scope of its own. Leaving the program ends it like reaching its end. -/
def program (bounds : Bounds) (p : Program) : Eval Flow := do
  let flow ← bounds.block p.statements
  return .normal flow.value

/-- The value of a program that is executed in a scope of its own. -/
def run (bounds : Bounds) (p : Program) : Eval Value := do
  let flow ← bounds.program p
  return flow.value

/-- The value of a program that is executed in the scope that is innermost, where its declarations
stay. -/
def runInSession (bounds : Bounds) (p : Program) : Eval Value := do
  let flow ← bounds.statements p.statements
  return flow.value

end Bounds

end Brisk
