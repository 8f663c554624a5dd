import Brisk.Evaluation.Basic

/-! # Evaluating trees

Expressions and statements are evaluated by recursion on their trees, with the calls in them left to
the function `call`.
-/

namespace Brisk

open Eval

mutual

/-- Evaluates an expression. Operands are evaluated from left to right, and all of them. -/
def Expr.eval (call : Call) (rounds : Nat) : Expr → Eval Value
  | .assign target value => do
    let v ← value.eval call rounds
    Eval.assign target v
    return v
  | .binary op left right => do
    let l ← left.eval call rounds
    let r ← right.eval call rounds
    ofExcept (op.apply l r)
  | .cast operand target => do
    let v ← operand.eval call rounds
    ofExcept (v.cast target)
  | .unary op operand => do
    let v ← operand.eval call rounds
    ofExcept (op.apply v)
  | .call traced callee arguments => do
    match ← callee.eval call rounds with
    | .function f => do
      let vs ← Expr.evalAll call rounds arguments
      call traced f vs
    | v => fail (.notCallable v.kind)
  | .lambda parameters body => return .function (.user parameters body)
  | .name name => lookup name
  | .paren inner => inner.eval call rounds
  | .literal value => return .ofLiteral value

/-- Evaluates expressions from left to right. -/
def Expr.evalAll (call : Call) (rounds : Nat) : List Expr → Eval (List Value)
  | [] => return []
  | e :: es => do
    let v ← e.eval call rounds
    let vs ← Expr.evalAll call rounds es
    return v :: vs

/-- Executes a statement. -/
def Stmt.exec (call : Call) (rounds : Nat) : Stmt → Eval Flow
  | .function name parameters body => do
    declare name (.function (.user parameters body)) false
    return .normal .unit
  | .declare name mutable value => do
    let v ← value.eval call rounds
    Eval.declare name v mutable
    return .normal .unit
  | .loop condition body =>
    repeatWhile (do truth .whileKey (← condition.eval call rounds))
      (inScope (Stmt.execAll call rounds .unit body)) rounds
  | .conditional c => c.exec call rounds
  | .leave none => return .leave .unit
  | .leave (some value) => do
    let v ← value.eval call rounds
    return .leave v
  | .expression e => do
    let v ← e.eval call rounds
    return .normal v
  | .empty => return .normal .unit

/-- Executes statements until one of them leaves. The value of the last one is the value of all, and
`last` if there is none. -/
def Stmt.execAll (call : Call) (rounds : Nat) (last : Value) : List Stmt → Eval Flow
  | [] => return .normal last
  | s :: ss => do
    match ← s.exec call rounds with
    | .normal v => Stmt.execAll call rounds v ss
    | .leave v => return .leave v

/-- Executes a conditional. -/
def Conditional.exec (call : Call) (rounds : Nat) : Conditional → Eval Flow
  | .mk condition body otherwise => do
    if ← truth .ifKey (← condition.eval call rounds) then
      let flow ← inScope (Stmt.execAll call rounds .unit body)
      return flow.settle
    else
      let flow ← otherwise.exec call rounds
      return flow.settle

/-- Executes what a conditional has for the case that its condition does not hold. -/
def Alternative.exec (call : Call) (rounds : Nat) : Alternative → Eval Flow
  | .nothing => return .normal .unit
  | .block body => inScope (Stmt.execAll call rounds .unit body)
  | .chain c => c.exec call rounds

end

end Brisk
