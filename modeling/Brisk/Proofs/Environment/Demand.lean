import Brisk.Evaluation.Basic
import Brisk.Proofs.Environment.Frame
import Brisk.Proofs.Tree.Demand
import Brisk.Proofs.Value.Operation

/-!
# Demands on the functions in an environment

A function value meets a demand if all functions that it is made from do, and an environment does if
all functions that are bound in it do, in whichever scope. The operations on values and environments
make no functions except by composition, so they keep a demand: what is computed from values that
meet it meets it, and so does what is looked up, and the environment in which such a value is bound.
-/

namespace Brisk

/-- Whether the functions that a function is made from meet a demand. -/
def Function.Meets (d : Demand) : Function → Prop
  | .user parameters body => d.parameters parameters ∧ Stmt.AllMeet d body
  | .print => True
  | .composed first second =>
    first.Meets d ∧ second.Meets d ∧ d.halves first.arity ∧ d.halves second.arity

/-- Whether a value meets a demand if it is a function. -/
def Value.Meets (d : Demand) : Value → Prop
  | .function f => f.Meets d
  | .unit | .int _ | .float _ | .str _ | .bool _ => True

/-- Whether the value that a statement ended with meets a demand. -/
def Flow.Meets (d : Demand) : Flow → Prop
  | .normal v | .leave v => v.Meets d

/-- Whether all values that are bound in a scope meet a demand. -/
def Scope.Meets (d : Demand) (scope : Scope) : Prop :=
  ∀ name b, scope.lookup name = some b → b.value.Meets d

/-- Whether all values that are bound in an environment meet a demand, the hidden ones among
them. -/
def Environment.Meets (d : Demand) (env : Environment) : Prop :=
  ∀ scope ∈ env.scopes, scope.Meets d

variable {d : Demand} {v w : Value}

/-! ## Values -/

/-- A value that is no function meets every demand. -/
theorem Value.meets_of_kind_ne (h : v.kind ≠ .function) : v.Meets d := by
  cases v with
  | function f => exact absurd rfl h
  | unit | int | float | str | bool => exact trivial

/-- Literals are no functions, so they meet every demand. -/
theorem Value.meets_ofLiteral (l : Literal) : (ofLiteral l).Meets d := by
  cases l <;> exact trivial

/-- What operators and casts give, other than by composing, is no function, so it meets every
demand. -/
theorem Operates.meets {r : Except RuntimeError Value} (h : Operates r) (hr : r = .ok v) :
    v.Meets d := by
  cases h with
  | value hv =>
    cases hr
    exact Value.meets_of_kind_ne hv
  | error he => cases hr

/-- What an operator makes of two values meets the demand that these meet. -/
theorem BinaryOp.meets_apply {op : BinaryOp} {l r : Value} (hl : l.Meets d) (hr : r.Meets d)
    (h : op.apply l r = .ok v) : v.Meets d := by
  obtain hoperates | ⟨f, g, rfl, rfl, hf, hg, hcomposed⟩ := op.apply_operates l r
  · exact hoperates.meets h
  · rw [hcomposed] at h
    cases h
    exact ⟨hl, hr, hf ▸ d.halves_one, hg ▸ d.halves_one⟩

/-! ## Ends of statements -/

namespace Flow

variable {flow : Flow}

/-- The value of a program is the one with which its last statement ended. -/
theorem Meets.value (h : flow.Meets d) : flow.value.Meets d := by
  cases flow <;> exact h

/-- The value of a function's body is the unit value or one that it was left with. -/
theorem Meets.returned (h : flow.Meets d) : flow.returned.Meets d := by
  cases flow with
  | normal v => exact trivial
  | leave v => exact h

/-- The unit value in the place of another one meets every demand. -/
theorem Meets.settle (h : flow.Meets d) : flow.settle.Meets d := by
  cases flow with
  | normal v => exact trivial
  | leave v => exact h

end Flow

/-! ## Environments -/

namespace Scope

/-- A scope that binds nothing has no functions. -/
theorem meets_nil : Meets d [] := fun _ _ h => by cases h

/-- A further binding of a value that meets a demand keeps the scope to it. -/
theorem Meets.cons {scope : Scope} {name : String} {mutable : Bool} (h : scope.Meets d)
    (hv : v.Meets d) : Meets d ((name, ⟨v, mutable⟩) :: scope) := by
  intro x b hb
  rw [List.lookup_cons] at hb
  split at hb
  · cases hb
    exact hv
  · exact h x b hb

/-- Giving a bound name another value that meets a demand keeps the scope to it. -/
theorem Meets.set {scope : Scope} (h : scope.Meets d) (hv : v.Meets d) (name : String) :
    (scope.set name v).Meets d := by
  intro x b hb
  rw [lookup_set] at hb
  split at hb
  · obtain ⟨b', -, rfl⟩ := Option.map_eq_some_iff.mp hb
    exact hv
  · exact h x b hb

end Scope

namespace Environment

variable {env env' : Environment}

/-- The printing function meets every demand. -/
theorem meets_initial : initial.Meets d := by
  intro scope hscope
  obtain rfl | rfl : scope = [] ∨ scope = [("print", ⟨.function .print, false⟩)] := by
    simpa [initial] using hscope
  · exact Scope.meets_nil
  · exact Scope.meets_nil.cons trivial

/-- An empty scope in front has no functions. -/
theorem Meets.push (h : env.Meets d) : env.push.Meets d :=
  List.forall_mem_cons.mpr ⟨Scope.meets_nil, h⟩

/-- Closing a scope takes values away only. -/
theorem Meets.pop (h : env.Meets d) : env.pop.Meets d :=
  fun scope hscope => h scope (List.mem_of_mem_tail hscope)

/-- The value of a name is one of those in the scopes. -/
theorem Meets.lookup (h : env.Meets d) {name : String} (hv : env.lookup name = some v) :
    v.Meets d := by
  obtain ⟨b, hb, rfl⟩ := Option.map_eq_some_iff.mp hv
  obtain ⟨scope, hscope, hlookup⟩ := List.exists_of_findSome?_eq_some hb
  exact h scope hscope name b hlookup

/-- A declaration adds its value to the innermost scope. -/
theorem Meets.declare? (h : env.Meets d) (hv : v.Meets d) {name : String} {mutable : Bool}
    (he : env.declare? name v mutable = some env') : env'.Meets d := by
  unfold Environment.declare? at he
  split at he
  · cases he
  · -- The new binding is added to the innermost scope, if the name is not bound there.
    next scope outer hscopes =>
    unfold Meets at h
    rw [hscopes, List.forall_mem_cons] at h
    split at he
    · cases he
    · cases he
      exact List.forall_mem_cons.mpr ⟨h.1.cons hv, h.2⟩

/-- An assignment puts its value in the place of another one, in the first scope that binds the
name. -/
theorem meets_assignIn {scopes scopes' : List Scope} {name : String}
    (h : ∀ scope ∈ scopes, scope.Meets d) (hv : v.Meets d)
    (he : assignIn name v scopes = .ok scopes') : ∀ scope ∈ scopes', scope.Meets d := by
  induction scopes generalizing scopes' with
  | nil => cases he
  | cons scope outer ih =>
    rw [List.forall_mem_cons] at h
    unfold assignIn at he
    -- The innermost scope binds the name, and changes if the binding is mutable.
    split at he
    · split at he
      · cases he
        exact List.forall_mem_cons.mpr ⟨h.1.set hv name, h.2⟩
      · cases he
    · -- The name is looked for further out, and this scope stays.
      cases ho : assignIn name v outer with
      | error e =>
        rw [ho] at he
        cases he
      | ok outer' =>
        rw [ho] at he
        cases he
        exact List.forall_mem_cons.mpr ⟨h.1, ih h.2 ho⟩

/-- Assigning a value that meets a demand keeps the environment to it. -/
theorem Meets.assign (h : env.Meets d) (hv : v.Meets d) {name : String}
    (he : env.assign name v = .ok env') : env'.Meets d := by
  unfold Environment.assign at he
  -- No scope is added or removed, and only the values in them count.
  cases hs : assignIn name v env.scopes with
  | error e =>
    rw [hs] at he
    cases he
  | ok scopes' =>
    rw [hs] at he
    cases he
    exact meets_assignIn h hv hs

end Environment

end Brisk
