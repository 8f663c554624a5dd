import Brisk.Evaluation.Basic

/-!
# Functions with other bodies

The functions that a program evaluates to have bodies, so when its statements are changed then so
are its values. `Value.mapBodies φ` applies a change `φ` of statements to the body of every function
in a value, and scopes and environments are treated in the same way.

Operators and casts see of a function only how many parameters it has, so their results are those of
the operands, changed in the same way (`BinaryOp.apply_mapBodies`, `UnaryOp.apply_mapBodies`,
`Value.cast_mapBodies`). Names are bound to the same values, changed, and can be declared and
assigned to if they could (`Environment.lookup_mapBodies` and its companions).
-/

namespace Brisk

/-! ## Values -/

/-- A function with another body. -/
def Function.mapBodies (φ : List Stmt → List Stmt) : Function → Function
  | .user parameters body => .user parameters (φ body)
  | .print => .print
  | .composed first second => .composed (first.mapBodies φ) (second.mapBodies φ)

/-- A value in which functions have other bodies. -/
def Value.mapBodies (φ : List Stmt → List Stmt) : Value → Value
  | .function f => .function (f.mapBodies φ)
  | .unit => .unit
  | .int n => .int n
  | .float x => .float x
  | .str s => .str s
  | .bool b => .bool b

/-- How a statement ended, with a value in which functions have other bodies. -/
def Flow.mapBodies (φ : List Stmt → List Stmt) : Flow → Flow
  | .normal v => .normal (v.mapBodies φ)
  | .leave v => .leave (v.mapBodies φ)

/-- Functions with the same bodies are the same. -/
theorem Function.mapBodies_id : Function.mapBodies id = id := by
  funext f
  induction f with
  | user | print => rfl
  | composed first second ih₁ ih₂ => rw [Function.mapBodies, ih₁, ih₂, id, id, id]

/-- Values with the same bodies are the same. -/
theorem Value.mapBodies_id : Value.mapBodies id = id := by
  funext v
  cases v with
  | function f => rw [Value.mapBodies, Function.mapBodies_id, id, id]
  | unit | int | float | str | bool => rfl

/-- Statements that ended in the same way with the same bodies ended with the same value. -/
theorem Flow.mapBodies_id : Flow.mapBodies id = id := by
  funext flow
  cases flow with
  | normal v | leave v => rw [Flow.mapBodies, Value.mapBodies_id, id, id]

section Bodies

variable (φ : List Stmt → List Stmt)

/-- Functions keep their parameters. -/
@[simp]
theorem Function.parameters_mapBodies (f : Function) :
    (f.mapBodies φ).parameters = f.parameters := by
  induction f with
  | user | print => rfl
  | composed first second ih =>
    rw [Function.mapBodies, Function.parameters, Function.parameters, ih]

/-- Functions keep their number of parameters. -/
@[simp]
theorem Function.arity_mapBodies (f : Function) : (f.mapBodies φ).arity = f.arity := by
  rw [Function.arity, Function.arity, Function.parameters_mapBodies]

/-- Functions are all printed alike. -/
@[simp]
theorem Value.text_mapBodies (v : Value) : (v.mapBodies φ).text = v.text := by cases v <;> rfl

/-- Literals have no bodies. -/
@[simp]
theorem Value.mapBodies_ofLiteral (l : Literal) : (ofLiteral l).mapBodies φ = ofLiteral l := by
  cases l <;> rfl

/-- The value of a program changes with the values of its statements. -/
@[simp]
theorem Flow.value_mapBodies (flow : Flow) : (flow.mapBodies φ).value = flow.value.mapBodies φ := by
  cases flow <;> rfl

/-- The value with which a body is left changes with the values of its statements. -/
@[simp]
theorem Flow.returned_mapBodies (flow : Flow) :
    (flow.mapBodies φ).returned = flow.returned.mapBodies φ := by cases flow <;> rfl

/-- The unit value has no body, and other values change as they do. -/
@[simp]
theorem Flow.settle_mapBodies (flow : Flow) :
    (flow.mapBodies φ).settle = flow.settle.mapBodies φ := by
  cases flow <;> rfl

/-! ## Operators and casts -/

/-- Integers have no bodies. -/
theorem checked_mapBodies (n : Int) : (checked n).map (Value.mapBodies φ) = checked n := by
  unfold checked
  cases Integer.ofInt? n <;> rfl

/-- What an operator gives on integers has no body. -/
theorem BinaryOp.onInt_mapBodies (op : BinaryOp) (a b : Int) :
    (op.onInt a b).map (Except.map (Value.mapBodies φ)) = op.onInt a b := by
  -- Only the two divisions look at the operand before they compute.
  cases op with
  | add | subtract | multiply => exact congrArg some (checked_mapBodies φ _)
  | divide =>
    refine congrArg some ?_
    by_cases hb : b = 0
    · rw [if_pos hb]
      rfl
    · rw [if_neg hb]
      exact checked_mapBodies φ _
  | remainder =>
    refine congrArg some ?_
    by_cases hb : b = 0
    · rw [if_pos hb]
      rfl
    · rw [if_neg hb]
      cases checked (a.tdiv b) with
      | ok v => exact checked_mapBodies φ _
      | error e => rfl
  | or | and | equal | notEqual | less | greater | lessEqual | greaterEqual | compose => rfl

/-- Whether functions can be composed depends on their parameters only. -/
theorem BinaryOp.compose_mapBodies (f g : Function) :
    compose.apply (.function (f.mapBodies φ)) (.function (g.mapBodies φ)) =
      (compose.apply (.function f) (.function g)).map (Value.mapBodies φ) := by
  have happly : ∀ f g : Function, compose.apply (.function f) (.function g) =
      if f.arity = 1 ∧ g.arity = 1 then .ok (.function (.composed f g))
      else .error (.compositionArity f.arity g.arity) := fun _ _ => rfl
  rw [happly, happly, f.arity_mapBodies, g.arity_mapBodies]
  split <;> rfl

/-- An operator sees of functions only how many parameters they have. -/
theorem BinaryOp.apply_mapBodies (op : BinaryOp) (left right : Value) :
    op.apply (left.mapBodies φ) (right.mapBodies φ) =
      (op.apply left right).map (Value.mapBodies φ) := by
  cases left with
  | int a =>
    cases right with
    | int b =>
      have h := Option.getD_map (Except.map (Value.mapBodies φ))
        (.error (.invalidOperation op .int .int)) (op.onInt a.toInt b.toInt)
      rw [op.onInt_mapBodies] at h
      exact h
    | unit | float | str | bool | function => rfl
  | float a =>
    cases right with
    | float b => cases op <;> rfl
    | unit | int | str | bool | function => rfl
  | bool a =>
    cases right with
    | bool b => cases op <;> rfl
    | unit | int | float | str | function => rfl
  | str a =>
    cases right with
    | str b => cases op <;> rfl
    | unit | int | float | bool | function => rfl
  | function f =>
    cases right with
    | function g =>
      -- Composing is the one operator that two functions have, and the one that keeps bodies.
      cases op with
      | compose => exact compose_mapBodies φ f g
      | or | and | equal | notEqual | less | greater | lessEqual | greaterEqual | add | subtract
      | multiply | divide | remainder => rfl
    | unit | int | float | str | bool => rfl
  | unit => cases right <;> rfl

/-- An operator sees nothing of a function's body. -/
theorem UnaryOp.apply_mapBodies (op : UnaryOp) (operand : Value) :
    op.apply (operand.mapBodies φ) = (op.apply operand).map (Value.mapBodies φ) := by
  cases op with
  | negate =>
    cases operand with
    | int n => exact (checked_mapBodies φ _).symm
    | unit | float | str | bool | function => rfl
  | not => cases operand <;> rfl

/-- What is read from a text has no body. -/
theorem Value.ofText_mapBodies {α : Type} {wrap : α → Value}
    (h : ∀ a, (wrap a).mapBodies φ = wrap a) (text : String) (target : TypeName) (read : Option α) :
    (ofText text target wrap read).map (Value.mapBodies φ) = ofText text target wrap read := by
  cases read with
  | none => rfl
  | some a => exact congrArg Except.ok (h a)

/-- A cast sees nothing of a function's body. -/
theorem Value.cast_mapBodies (v : Value) (target : TypeName) :
    (v.mapBodies φ).cast target = (v.cast target).map (Value.mapBodies φ) := by
  -- Only texts and floats can fail to be cast, and neither of them holds a body.
  cases v with
  | float x =>
    cases target with
    | int =>
      show (truncate x).map Value.int = ((truncate x).map Value.int).map (Value.mapBodies φ)
      cases truncate x <;> rfl
    | float | str | bool => rfl
  | str s =>
    cases target with
    | int => exact (ofText_mapBodies φ (fun _ => rfl) s .int (Integer.read? s)).symm
    | float => exact (ofText_mapBodies φ (fun _ => rfl) s .float (Decimal.read? s)).symm
    | str | bool => rfl
  | unit | int | bool | function => cases target <;> rfl

end Bodies

/-! ## Environments -/

/-- A binding of a value in which functions have other bodies. -/
def Binding.mapBodies (φ : List Stmt → List Stmt) (b : Binding) : Binding :=
  { b with value := b.value.mapBodies φ }

/-- A scope with values in which functions have other bodies. -/
def Scope.mapBodies (φ : List Stmt → List Stmt) (scope : Scope) : Scope :=
  scope.map fun entry => (entry.1, entry.2.mapBodies φ)

/-- An environment with values in which functions have other bodies. -/
def Environment.mapBodies (φ : List Stmt → List Stmt) (env : Environment) : Environment :=
  ⟨env.scopes.map (·.mapBodies φ)⟩

section Bodies

variable (φ : List Stmt → List Stmt)

/-- The same names are bound in a scope, to the changed values. -/
theorem Scope.lookup_mapBodies (scope : Scope) (name : String) :
    (scope.mapBodies φ).lookup name = (scope.lookup name).map (Binding.mapBodies φ) := by
  induction scope with
  | nil => rfl
  | cons entry scope ih =>
    obtain ⟨x, b⟩ := entry
    show List.lookup name ((x, b.mapBodies φ) :: Scope.mapBodies φ scope) = _
    rw [List.lookup_cons, List.lookup_cons, ih]
    cases name == x <;> rfl

/-- Giving a name another value and changing all bodies can be done in either order. -/
theorem Scope.set_mapBodies (scope : Scope) (name : String) (v : Value) :
    (scope.set name v).mapBodies φ = (scope.mapBodies φ).set name (v.mapBodies φ) := by
  induction scope with
  | nil => rfl
  | cons entry scope ih =>
    obtain ⟨x, b⟩ := entry
    show Scope.mapBodies φ (Scope.set name v ((x, b) :: scope)) =
      Scope.set name (v.mapBodies φ) ((x, b.mapBodies φ) :: Scope.mapBodies φ scope)
    rw [Scope.set, Scope.set, ← ih]
    split <;> rfl

namespace Environment

/-- The same names have values in an environment, which are the changed ones. -/
theorem lookup_mapBodies (env : Environment) (name : String) :
    (env.mapBodies φ).lookup name = (env.lookup name).map (Value.mapBodies φ) := by
  obtain ⟨scopes⟩ := env
  unfold lookup binding? mapBodies
  induction scopes with
  | nil => rfl
  | cons scope outer ih =>
    rw [List.map_cons, List.findSome?_cons, List.findSome?_cons, Scope.lookup_mapBodies]
    cases scope.lookup name with
    | some b => rfl
    | none => exact ih

/-- The same names can be declared, and lead to the changed environment. -/
theorem declare?_mapBodies (env : Environment) (name : String) (v : Value) (mutable : Bool) :
    (env.mapBodies φ).declare? name (v.mapBodies φ) mutable =
      (env.declare? name v mutable).map (Environment.mapBodies φ) := by
  obtain ⟨scopes⟩ := env
  unfold declare? mapBodies
  cases scopes with
  | nil => rfl
  | cons scope outer =>
    simp only [List.map_cons, Scope.lookup_mapBodies]
    cases scope.lookup name <;> rfl

/-- The same assignments can be made in the same scopes. -/
theorem assignIn_mapBodies (name : String) (v : Value) (scopes : List Scope) :
    assignIn name (v.mapBodies φ) (scopes.map (·.mapBodies φ)) =
      (assignIn name v scopes).map (List.map (·.mapBodies φ)) := by
  -- The scopes are searched from the innermost one outwards, which is the list's own order.
  induction scopes with
  | nil => rfl
  | cons scope outer ih =>
    rw [List.map_cons, assignIn, assignIn, Scope.lookup_mapBodies]
    cases scope.lookup name with
    | some b =>
      have hmutable : (b.mapBodies φ).mutable = b.mutable := rfl
      simp only [Option.map_some]
      rw [hmutable, ← Scope.set_mapBodies]
      split <;> rfl
    | none =>
      simp only [Option.map_none]
      rw [ih]
      cases assignIn name v outer <;> rfl

/-- The same assignments can be made in an environment, and lead to the changed one. -/
theorem assign_mapBodies (env : Environment) (name : String) (v : Value) :
    (env.mapBodies φ).assign name (v.mapBodies φ) =
      (env.assign name v).map (Environment.mapBodies φ) := by
  unfold assign mapBodies
  rw [assignIn_mapBodies]
  cases assignIn name v env.scopes <;> rfl

end Environment

end Bodies

end Brisk
