import Brisk.Proofs.Evaluation.Bodies

/-!
# Trees without traced calls

`Expr.retrace keep` goes through a tree and keeps its traced calls, or makes plain calls of them:
then `[f](x)` becomes `(f)(x)`. That traced calls may also be kept, which changes nothing
(`Stmt.listRetrace_same`), lets one simulation serve runs of two programs as well as two runs of one
program.

The functions that a program evaluates to have bodies, so values and environments are treated in the
same way. This is one of the changes of bodies of which it is known what they mean for operators,
casts and environments (`Value.mapBodies`, `Environment.mapBodies`).
-/

namespace Brisk

/-! ## Trees -/

mutual

/-- An expression in which the traced calls are kept, or are plain calls. -/
def Expr.retrace (keep : Bool) : Expr → Expr
  | .assign target value => .assign target (value.retrace keep)
  | .binary op left right => .binary op (left.retrace keep) (right.retrace keep)
  | .cast operand target => .cast (operand.retrace keep) target
  | .unary op operand => .unary op (operand.retrace keep)
  | .call false callee arguments =>
    .call false (callee.retrace keep) (Expr.listRetrace keep arguments)
  | .call true callee arguments =>
    if keep then .call true (callee.retrace keep) (Expr.listRetrace keep arguments)
    else .call false (.paren (callee.retrace keep)) (Expr.listRetrace keep arguments)
  | .lambda parameters body => .lambda parameters (Stmt.listRetrace keep body)
  | .name name => .name name
  | .paren inner => .paren (inner.retrace keep)
  | .literal value => .literal value

/-- Expressions in which the traced calls are kept, or are plain calls. -/
def Expr.listRetrace (keep : Bool) : List Expr → List Expr
  | [] => []
  | e :: es => e.retrace keep :: Expr.listRetrace keep es

/-- A statement in which the traced calls are kept, or are plain calls. -/
def Stmt.retrace (keep : Bool) : Stmt → Stmt
  | .function name parameters body => .function name parameters (Stmt.listRetrace keep body)
  | .declare name mutable value => .declare name mutable (value.retrace keep)
  | .loop condition body => .loop (condition.retrace keep) (Stmt.listRetrace keep body)
  | .conditional c => .conditional (c.retrace keep)
  | .leave none => .leave none
  | .leave (some value) => .leave (some (value.retrace keep))
  | .expression e => .expression (e.retrace keep)
  | .empty => .empty

/-- Statements in which the traced calls are kept, or are plain calls. -/
def Stmt.listRetrace (keep : Bool) : List Stmt → List Stmt
  | [] => []
  | s :: ss => s.retrace keep :: Stmt.listRetrace keep ss

/-- A conditional in which the traced calls are kept, or are plain calls. -/
def Conditional.retrace (keep : Bool) : Conditional → Conditional
  | .mk condition body otherwise =>
    .mk (condition.retrace keep) (Stmt.listRetrace keep body) (otherwise.retrace keep)

/-- What is executed otherwise, in which the traced calls are kept, or are plain calls. -/
def Alternative.retrace (keep : Bool) : Alternative → Alternative
  | .nothing => .nothing
  | .block body => .block (Stmt.listRetrace keep body)
  | .chain c => .chain (c.retrace keep)

end

/-- A program in which the traced calls are kept, or are plain calls. -/
def Program.retrace (keep : Bool) (p : Program) : Program := ⟨Stmt.listRetrace keep p.statements⟩

mutual

/-- Nothing changes when traced calls are kept. -/
theorem Expr.retrace_same : ∀ e : Expr, e.retrace true = e
  | .assign target value => by rw [Expr.retrace, value.retrace_same]
  | .binary op left right => by rw [Expr.retrace, left.retrace_same, right.retrace_same]
  | .cast operand target => by rw [Expr.retrace, operand.retrace_same]
  | .unary op operand => by rw [Expr.retrace, operand.retrace_same]
  | .call false callee arguments => by
    rw [Expr.retrace, callee.retrace_same, Expr.listRetrace_same arguments]
  -- Only here the mark of a call decides, and keeping it changes nothing.
  | .call true callee arguments => by
    rw [Expr.retrace, if_pos rfl, callee.retrace_same, Expr.listRetrace_same arguments]
  | .lambda parameters body => by rw [Expr.retrace, Stmt.listRetrace_same body]
  | .name name => by rw [Expr.retrace]
  | .paren inner => by rw [Expr.retrace, inner.retrace_same]
  | .literal value => by rw [Expr.retrace]

/-- Nothing changes in a list of expressions when traced calls are kept. -/
theorem Expr.listRetrace_same : ∀ es : List Expr, Expr.listRetrace true es = es
  | [] => by rw [Expr.listRetrace]
  | e :: es => by rw [Expr.listRetrace, e.retrace_same, Expr.listRetrace_same es]

/-- Nothing changes in a statement when traced calls are kept. -/
theorem Stmt.retrace_same : ∀ s : Stmt, s.retrace true = s
  | .function name parameters body => by rw [Stmt.retrace, Stmt.listRetrace_same body]
  | .declare name mutable value => by rw [Stmt.retrace, value.retrace_same]
  | .loop condition body => by
    rw [Stmt.retrace, condition.retrace_same, Stmt.listRetrace_same body]
  | .conditional c => by rw [Stmt.retrace, c.retrace_same]
  | .leave none => by rw [Stmt.retrace]
  | .leave (some value) => by rw [Stmt.retrace, value.retrace_same]
  | .expression e => by rw [Stmt.retrace, e.retrace_same]
  | .empty => by rw [Stmt.retrace]

/-- Nothing changes in a list of statements when traced calls are kept. -/
theorem Stmt.listRetrace_same : ∀ ss : List Stmt, Stmt.listRetrace true ss = ss
  | [] => by rw [Stmt.listRetrace]
  | s :: ss => by rw [Stmt.listRetrace, s.retrace_same, Stmt.listRetrace_same ss]

/-- Nothing changes in a conditional when traced calls are kept. -/
theorem Conditional.retrace_same : ∀ c : Conditional, c.retrace true = c
  | .mk condition body otherwise => by
    rw [Conditional.retrace, condition.retrace_same, Stmt.listRetrace_same body,
      otherwise.retrace_same]

/-- Nothing changes in what is executed otherwise when traced calls are kept. -/
theorem Alternative.retrace_same : ∀ a : Alternative, a.retrace true = a
  | .nothing => by rw [Alternative.retrace]
  | .block body => by rw [Alternative.retrace, Stmt.listRetrace_same body]
  | .chain c => by rw [Alternative.retrace, c.retrace_same]

end

/-- Nothing changes in bodies when traced calls are kept. -/
theorem Stmt.listRetrace_true : Stmt.listRetrace true = id := funext Stmt.listRetrace_same

/-! ## Values and environments -/

/-- A function in whose body the traced calls are kept, or are plain calls. -/
abbrev Function.retrace (keep : Bool) : Function → Function :=
  Function.mapBodies (Stmt.listRetrace keep)

/-- A value, with the body of a function treated in the same way. -/
abbrev Value.retrace (keep : Bool) : Value → Value := Value.mapBodies (Stmt.listRetrace keep)

/-- How a statement ended, with its value treated in the same way. -/
abbrev Flow.retrace (keep : Bool) : Flow → Flow := Flow.mapBodies (Stmt.listRetrace keep)

/-- An environment, with its values treated in the same way. -/
abbrev Environment.retrace (keep : Bool) : Environment → Environment :=
  Environment.mapBodies (Stmt.listRetrace keep)

/-- Values stay the same when traced calls are kept. -/
theorem Value.retrace_same (v : Value) : v.retrace true = v := by
  rw [Value.retrace, Stmt.listRetrace_true, Value.mapBodies_id, id]

/-- The ways in which a statement ended stay the same when traced calls are kept. -/
theorem Flow.retrace_same (flow : Flow) : flow.retrace true = flow := by
  rw [Flow.retrace, Stmt.listRetrace_true, Flow.mapBodies_id, id]

end Brisk
