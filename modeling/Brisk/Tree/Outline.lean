import Brisk.Tree.Basic

/-! # Outlines of trees

A tree is shown as an outline: one row per node, indented by its depth, with the rows of its
children below it.
-/

namespace Brisk

/-- A labelled tree, as it is shown. -/
inductive Outline where
  | node (label : String) (children : List Outline)

/-- One line of an outline. -/
structure Outline.Row where
  depth : Nat
  label : String
  deriving DecidableEq, Repr

namespace Outline

/-- A node without children. -/
def leaf (label : String) : Outline := node label []

mutual

/-- The rows of an outline whose root stands at a given depth. -/
def rows (depth : Nat) : Outline → List Row
  | node label children => ⟨depth, label⟩ :: rowsOfAll (depth + 1) children

/-- The rows of outlines that stand side by side at a given depth. -/
def rowsOfAll (depth : Nat) : List Outline → List Row
  | [] => []
  | o :: os => rows depth o ++ rowsOfAll depth os

end

/-- A row is indented by two blanks for each level and ends with a line feed. -/
def Row.text (row : Row) : List Char :=
  List.replicate (2 * row.depth) ' ' ++ row.label.toList ++ ['\n']

/-- An outline as text. -/
def text (o : Outline) : String :=
  String.ofList ((rows 0 o).flatMap Row.text)

end Outline

/-- The name of the nodes of an operator. Operators that share a level share it, and are then told
apart by their symbols. -/
def BinaryOp.label (op : BinaryOp) : String :=
  match op with
  | or => "OrExpression"
  | and => "AndExpression"
  | equal | notEqual => s!"ComparisonExpression {op.symbol.text}"
  | less | greater | lessEqual | greaterEqual => s!"RelationalExpression {op.symbol.text}"
  | add | subtract => s!"AdditiveExpression {op.symbol.text}"
  | multiply | divide | remainder => s!"MultiplicativeExpression {op.symbol.text}"
  | compose => "CompositiveExpression"

/-- A literal as it is shown: floats so that they are no integers, and strings quoted. -/
def Literal.text : Literal → String
  | int n => Integer.text n
  | float x => Decimal.literal x
  | str s => Text.quote s
  | bool b => if b then "true" else "false"

/-- A name that is declared, marked if it can be assigned to. -/
def declaredName (name : String) (mutable : Bool) : String :=
  if mutable then s!"mut {name}" else name

/-- The outline of a list of parameters. -/
def Parameter.outline (parameters : List Parameter) : Outline :=
  .node "DeclarationArguments"
    (parameters.map fun p => .leaf s!"Parameter {declaredName p.name p.mutable}")

mutual

/-- The outline of an expression. -/
def Expr.outline : Expr → Outline
  | .assign target value => .node s!"AssignmentExpression {target}" [value.outline]
  | .binary op left right => .node op.label [left.outline, right.outline]
  | .cast operand target =>
    .node "CastExpression" [operand.outline, .leaf s!"TypeSpecifier {target.text}"]
  | .unary op operand => .node s!"PrefixExpression {op.symbol.text}" [operand.outline]
  | .call traced callee arguments =>
    .node (if traced then "DebugExpression" else "CallExpression")
      [callee.outline, .node "CallArguments" (Expr.outlines arguments)]
  | .lambda parameters body =>
    .node "LambdaExpression" [Parameter.outline parameters, .node "Block" (Stmt.outlines body)]
  | .name name => .leaf s!"Identifier {name}"
  | .paren inner => .node "ParentExpression" [inner.outline]
  | .literal value => .leaf s!"Literal {value.text}"

/-- The outlines of expressions, in their order. -/
def Expr.outlines : List Expr → List Outline
  | [] => []
  | e :: es => e.outline :: Expr.outlines es

/-- The outline of a statement. -/
def Stmt.outline : Stmt → Outline
  | .function name parameters body =>
    .node s!"FunctionDeclaration {name}"
      [Parameter.outline parameters, .node "Block" (Stmt.outlines body)]
  | .declare name mutable value =>
    .node s!"VariableDeclaration {declaredName name mutable}" [value.outline]
  | .loop condition body =>
    .node "WhileLoopStatement" [condition.outline, .node "Block" (Stmt.outlines body)]
  | .conditional c => c.outline
  | .leave none => .leaf "ReturnStatement"
  | .leave (some value) => .node "ReturnStatement" [value.outline]
  | .expression e => .node "ExpressionStatement" [e.outline]
  | .empty => .leaf "NullStatement"

/-- The outlines of statements, in their order. -/
def Stmt.outlines : List Stmt → List Outline
  | [] => []
  | s :: ss => s.outline :: Stmt.outlines ss

/-- The outline of a conditional. -/
def Conditional.outline : Conditional → Outline
  | .mk condition body otherwise =>
    .node "IfStatement"
      (condition.outline :: .node "Block" (Stmt.outlines body) :: otherwise.outlines)

/-- The outlines of what is executed otherwise. -/
def Alternative.outlines : Alternative → List Outline
  | .nothing => []
  | .block body => [.node "Block" (Stmt.outlines body)]
  | .chain c => [c.outline]

end

/-- The outline of a program. -/
def Program.outline (p : Program) : Outline :=
  .node "Program" (Stmt.outlines p.statements)

/-- A program as text that shows its tree. -/
def Program.dump (p : Program) : String := p.outline.text

end Brisk
