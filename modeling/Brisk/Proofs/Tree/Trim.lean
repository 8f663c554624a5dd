import Brisk.Tree.Basic

/-!
# Trees without dead statements

Behind a statement that leaves, nothing in the same list of statements is ever executed. `trim`
deletes what stands there, in all lists of statements of a tree: those of blocks, of loops and of
functions. So two trees that have been trimmed are the same exactly if one can be made of the other
by deleting and inserting statements behind returns, at any number of places.
-/

namespace Brisk

/-- Whether a statement leaves the function or program around it. -/
def Stmt.isLeave : Stmt → Bool
  | .leave _ => true
  | .function _ _ _ | .declare _ _ _ | .loop _ _ | .conditional _ | .expression _ | .empty => false

/-- What leaves is a return. -/
theorem Stmt.eq_leave_of_isLeave {s : Stmt} (h : s.isLeave = true) : ∃ value, s = .leave value := by
  cases s with
  | leave value => exact ⟨value, rfl⟩
  | function | declare | loop | conditional | expression | empty =>
    exact absurd h Bool.false_ne_true

mutual

/-- An expression in which nothing stands behind a return. -/
def Expr.trim : Expr → Expr
  | .assign target value => .assign target value.trim
  | .binary op left right => .binary op left.trim right.trim
  | .cast operand target => .cast operand.trim target
  | .unary op operand => .unary op operand.trim
  | .call traced callee arguments => .call traced callee.trim (Expr.listTrim arguments)
  | .lambda parameters body => .lambda parameters (Stmt.listTrim body)
  | .name name => .name name
  | .paren inner => .paren inner.trim
  | .literal value => .literal value

/-- Expressions in which nothing stands behind a return. -/
def Expr.listTrim : List Expr → List Expr
  | [] => []
  | e :: es => e.trim :: Expr.listTrim es

/-- A statement in which nothing stands behind a return. -/
def Stmt.trim : Stmt → Stmt
  | .function name parameters body => .function name parameters (Stmt.listTrim body)
  | .declare name mutable value => .declare name mutable value.trim
  | .loop condition body => .loop condition.trim (Stmt.listTrim body)
  | .conditional c => .conditional c.trim
  | .leave none => .leave none
  | .leave (some value) => .leave (some value.trim)
  | .expression e => .expression e.trim
  | .empty => .empty

/-- Statements up to the first one that leaves, and nothing stands behind a return in them. -/
def Stmt.listTrim : List Stmt → List Stmt
  | [] => []
  | s :: ss => if s.isLeave then [s.trim] else s.trim :: Stmt.listTrim ss

/-- A conditional in which nothing stands behind a return. -/
def Conditional.trim : Conditional → Conditional
  | .mk condition body otherwise => .mk condition.trim (Stmt.listTrim body) otherwise.trim

/-- What is executed otherwise, in which nothing stands behind a return. -/
def Alternative.trim : Alternative → Alternative
  | .nothing => .nothing
  | .block body => .block (Stmt.listTrim body)
  | .chain c => .chain c.trim

end

/-- A program in which nothing stands behind a return. -/
def Program.trim (p : Program) : Program := ⟨Stmt.listTrim p.statements⟩

end Brisk
