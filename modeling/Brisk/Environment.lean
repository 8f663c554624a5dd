import Brisk.Value.Basic

/-! # Environments

Names are bound in scopes, which are nested: the innermost comes first. A name is looked up from the
innermost scope outwards, so an inner binding hides an outer one. A scope binds a name at most once,
and only a binding that was declared mutable can be given another value.
-/

namespace Brisk

/-- What a name is bound to, and whether that can change. -/
structure Binding where
  value : Value
  mutable : Bool

/-- The names that are bound in one scope. -/
abbrev Scope := List (String × Binding)

/-- Gives the binding of a name another value. -/
def Scope.set (name : String) (value : Value) : Scope → Scope
  | [] => []
  | (x, b) :: scope =>
    if x = name then (x, { b with value }) :: scope else (x, b) :: Scope.set name value scope

/-- Why a name could not be given another value. -/
inductive AssignError where
  | unbound
  | immutable
  deriving DecidableEq, Repr

/-- The open scopes, the innermost first. -/
structure Environment where
  scopes : List Scope

namespace Environment

/-- No scope is open. -/
def empty : Environment := ⟨[]⟩

/-- Opens a scope. -/
def push (env : Environment) : Environment := ⟨[] :: env.scopes⟩

/-- Closes the innermost scope. -/
def pop (env : Environment) : Environment := ⟨env.scopes.tail⟩

/-- Binds a name in the innermost scope, unless that already binds it or no scope is open. -/
def declare? (env : Environment) (name : String) (value : Value) (mutable : Bool) :
    Option Environment :=
  match env.scopes with
  | [] => none
  | scope :: outer =>
    match scope.lookup name with
    | some _ => none
    | none => some ⟨((name, ⟨value, mutable⟩) :: scope) :: outer⟩

/-- The innermost binding of a name. -/
def binding? (env : Environment) (name : String) : Option Binding :=
  env.scopes.findSome? (·.lookup name)

/-- The value that a name is bound to. -/
def lookup (env : Environment) (name : String) : Option Value :=
  (env.binding? name).map (·.value)

/-- Gives the innermost binding of a name another value, among the given scopes. -/
def assignIn (name : String) (value : Value) : List Scope → Except AssignError (List Scope)
  | [] => .error .unbound
  | scope :: outer =>
    match scope.lookup name with
    | some b =>
      if b.mutable then .ok (scope.set name value :: outer) else .error .immutable
    | none => (assignIn name value outer).map (scope :: ·)

/-- Gives the innermost binding of a name another value. -/
def assign (env : Environment) (name : String) (value : Value) :
    Except AssignError Environment :=
  (assignIn name value env.scopes).map (⟨·⟩)

/-- What every session starts with: an outer scope with the functions that are always there, and the
scope of the session itself. -/
def initial : Environment := ⟨[[], [("print", ⟨.function .print, false⟩)]]⟩

end Environment

end Brisk
