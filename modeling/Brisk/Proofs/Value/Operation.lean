import Brisk.Value.Cast
import Brisk.Value.Operation

/-!
# What operations on values come to

Operators and casts come to values that are no functions, or fail with errors of their own. There is
one exception: functions of one parameter are composed (`BinaryOp.apply_operates`).
-/

namespace Brisk

/-- Whether an error is one of an operator or a cast. -/
def RuntimeError.OfOperation : RuntimeError → Prop
  | .invalidOperation _ _ _ | .invalidUnary _ _ | .compositionArity _ _ | .overflow
  | .divisionByZero | .invalidCast _ _ | .malformedCast _ _ => True
  | .expectedBool _ _ | .notCallable _ | .arityMismatch _ _ | .unbound _ | .immutable _
  | .redeclared _ | .callDepthExceeded _ | .io _ => False

/-- What an operation comes to that makes no function. -/
inductive Operates : Except RuntimeError Value → Prop where
  | value {v : Value} (h : v.kind ≠ .function) : Operates (.ok v)
  | error {e : RuntimeError} (h : e.OfOperation) : Operates (.error e)

/-- The error of an operator or a cast is one of those that operators and casts have. -/
theorem Operates.ofOperation {r : Except RuntimeError Value} (h : Operates r) {e : RuntimeError}
    (hr : r = .error e) : e.OfOperation := by
  cases h with
  | value hv => cases hr
  | error he =>
    cases hr
    exact he

/-- Integers that are checked are integers or out of range. -/
theorem checked_operates (n : Int) : Operates (checked n) := by
  unfold checked
  split
  · exact .value (by simp [Value.kind])
  · exact .error trivial

namespace Value

/-- Reading a text gives a value that is no function, or the error that the text is malformed. -/
theorem ofText_operates {α : Type} (text : String) (target : TypeName) {wrap : α → Value}
    (hwrap : ∀ a, (wrap a).kind ≠ .function) (read : Option α) :
    Operates (ofText text target wrap read) := by
  cases read with
  | some a => exact .value (hwrap a)
  | none => exact .error trivial

/-- A cast makes no function. -/
theorem cast_operates (v : Value) (target : TypeName) : Operates (v.cast target) := by
  cases v with
  | int n =>
    cases target with
    | int => exact .error trivial
    | float | bool | str => exact .value (by simp [kind])
  | float x =>
    cases target with
    | int =>
      -- A float that is out of range has no integer.
      show Operates ((truncate x).map int)
      unfold truncate
      split
      · exact .value (by simp [kind])
      · exact .error trivial
    | float => exact .error trivial
    | bool | str => exact .value (by simp [kind])
  | bool b =>
    cases target with
    | int | float => exact .value (by simp [kind])
    | bool | str => exact .error trivial
  | str s =>
    cases target with
    | int => exact ofText_operates _ _ (fun _ => by simp [kind]) _
    | float => exact ofText_operates _ _ (fun _ => by simp [kind]) _
    | bool => exact .error trivial
    | str => exact .value (by simp [kind])
  | unit | function => exact .error trivial

end Value

namespace BinaryOp

variable {op : BinaryOp}

/-- Operators on integers give integers and truth values. -/
theorem onInt_operates {a b : Int} {r : Except RuntimeError Value} (h : onInt a b op = some r) :
    Operates r := by
  cases op with
  | equal | notEqual | less | greater | lessEqual | greaterEqual =>
    cases h
    exact .value (by simp [Value.kind])
  | add | subtract | multiply =>
    cases h
    exact checked_operates _
  | divide =>
    cases h
    split
    · exact .error trivial
    · exact checked_operates _
  | remainder =>
    cases h
    split
    · exact .error trivial
    · -- The quotient may fail to fit, and then the remainder is not looked at.
      have hquotient := checked_operates (a.tdiv b)
      generalize checked (a.tdiv b) = q at hquotient
      cases hquotient with
      | value hv => exact checked_operates _
      | error he => exact .error he
  | or | and | compose => cases h

/-- Operators on floats give floats and truth values. -/
theorem onFloat_operates {a b : Float} {r : Except RuntimeError Value}
    (h : (onFloat a b op).map .ok = some r) : Operates r := by
  cases op <;> cases h <;> exact .value (by simp [Value.kind])

/-- Operators on truth values give truth values. -/
theorem onBool_operates {a b : Bool} {r : Except RuntimeError Value}
    (h : (onBool a b op).map .ok = some r) : Operates r := by
  cases op <;> cases h <;> exact .value (by simp [Value.kind])

/-- Operators on strings give strings and truth values. -/
theorem onStr_operates {a b : String} {r : Except RuntimeError Value}
    (h : (onStr a b op).map .ok = some r) : Operates r := by
  cases op <;> cases h
  exact .value (by simp [Value.kind])

/-- An operator makes no function, except that functions of one parameter are composed. -/
theorem apply_operates (op : BinaryOp) (l r : Value) :
    Operates (op.apply l r) ∨ ∃ f g, l = .function f ∧ r = .function g ∧ f.arity = 1 ∧
      g.arity = 1 ∧ op.apply l r = .ok (.function (.composed f g)) := by
  -- Where a pair of kinds has no operation, the error is that of an invalid operation.
  have hgetD {result : Option (Except RuntimeError Value)} {e : RuntimeError}
      (he : e.OfOperation) (h : ∀ r, result = some r → Operates r) :
      Operates (result.getD (.error e)) := by
    cases result with
    | none => exact .error he
    | some r => exact h r rfl
  cases l with
  | int a =>
    cases r with
    | int b => exact .inl (hgetD trivial fun _ => onInt_operates)
    | unit | float | str | bool | function => exact .inl (.error trivial)
  | float a =>
    cases r with
    | float b => exact .inl (hgetD trivial fun _ => onFloat_operates)
    | unit | int | str | bool | function => exact .inl (.error trivial)
  | bool a =>
    cases r with
    | bool b => exact .inl (hgetD trivial fun _ => onBool_operates)
    | unit | int | float | str | function => exact .inl (.error trivial)
  | str a =>
    cases r with
    | str b => exact .inl (hgetD trivial fun _ => onStr_operates)
    | unit | int | float | bool | function => exact .inl (.error trivial)
  | function f =>
    cases r with
    | function g =>
      -- Functions can be composed and nothing else.
      cases op with
      | compose =>
        -- Composing asks both functions for one parameter.
        by_cases harity : f.arity = 1 ∧ g.arity = 1
        · refine .inr ⟨f, g, rfl, rfl, harity.1, harity.2, ?_⟩
          show (if f.arity = 1 ∧ g.arity = 1 then _ else _) = _
          rw [if_pos harity]
        · refine .inl ?_
          show Operates (if f.arity = 1 ∧ g.arity = 1 then _ else _)
          rw [if_neg harity]
          exact .error trivial
      | or | and | equal | notEqual | less | greater | lessEqual | greaterEqual | add | subtract
      | multiply | divide | remainder => exact .inl (.error trivial)
    | unit | int | float | str | bool => exact .inl (.error trivial)
  | unit => exact .inl (.error trivial)

end BinaryOp

/-- An operator in front of an operand makes no function. -/
theorem UnaryOp.apply_operates (op : UnaryOp) (v : Value) : Operates (op.apply v) := by
  unfold apply
  split
  · exact checked_operates _
  · exact .value (by simp [Value.kind])
  · exact .value (by simp [Value.kind])
  · exact .error trivial

end Brisk
