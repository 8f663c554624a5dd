import Brisk.Proofs.Evaluation.Parts
import Brisk.Proofs.Value.Operation
import Mathlib.Data.Prod.Lex

/-!
# Where errors come from

No error is caught: a task that fails does so because one of its parts fails with the same error, or
because it raises the error itself when its parts have been performed. `Task.Raises` lists all ways
in which tasks do that. There is no infinite sequence of tasks of which each is a part of the one
before (`Part.wellFounded`), since parts are smaller trees, or fewer rounds of a loop, or bodies for
which a call is entered, of which only so many may be nested. So every error has an origin, which
is a task that is visited and raises it (`Task.exists_origin`).
-/

namespace Brisk

open Eval

/-! ## Evaluations that fail -/

namespace Eval

variable {α β : Type} {m : Machine} {e : Stop}

/-- An evaluation ends with an error. -/
def Fails (action : Eval α) (m : Machine) (e : Stop) : Prop := ∃ m', action m = .error e m'

/-- A result is no error. -/
theorem not_fails_pure (a : α) : ¬ Fails (pure a : Eval α) m e := by
  rintro ⟨m', h⟩
  cases h

/-- What raises an error fails with that. -/
theorem Fails.throw_eq {e' : Stop} (h : Fails (throw e' : Eval α) m e) : e = e' := by
  obtain ⟨m', h⟩ := h
  cases h
  rfl

/-- Using a result that may be an error fails if it is one. -/
theorem Fails.ofExcept_cases {r : Except RuntimeError α} (h : Fails (ofExcept r) m e) :
    ∃ cause, r = .error cause ∧ e = .error cause := by
  cases r with
  | ok a => exact absurd h (not_fails_pure a)
  | error cause => exact ⟨cause, rfl, h.throw_eq⟩

/-- A sequence fails where its first evaluation does, or where the next one does behind it. -/
theorem Fails.bind_cases {action : Eval α} {next : α → Eval β} (h : Fails (action >>= next) m e) :
    Fails action m e ∨ ∃ a m', action m = .ok a m' ∧ Fails (next a) m' e := by
  obtain ⟨m'', h⟩ := h
  cases hr : action m with
  | ok a m' =>
    rw [bind_of_ok hr] at h
    exact .inr ⟨a, m', rfl, m'', h⟩
  | error e' m' =>
    rw [bind_of_error hr] at h
    cases h
    exact .inl ⟨_, hr⟩

/-- What is made of a result is not reached when an evaluation fails. -/
theorem Fails.map {action : Eval α} (f : α → β) (h : Fails action m e) :
    Fails (action >>= fun a => pure (f a)) m e := by
  obtain ⟨m', h⟩ := h
  exact ⟨m', bind_of_error h⟩

/-- What is made of a result does not fail. -/
theorem Fails.of_map {action : Eval α} {f : α → β}
    (h : Fails (action >>= fun a => pure (f a)) m e) : Fails action m e := by
  obtain h | ⟨a, m', -, h⟩ := h.bind_cases
  · exact h
  · exact absurd h (not_fails_pure _)

/-- What fails in a changed machine fails with the same error as what is evaluated there. -/
theorem Fails.of_within {enter leave : Machine → Machine} {body : Eval α}
    (h : Fails (within enter leave body) m e) : Fails body (enter m) e := by
  obtain ⟨m', h⟩ := h
  unfold within at h
  cases hr : body (enter m) with
  | ok a m'' =>
    rw [hr] at h
    cases h
  | error e' m'' =>
    rw [hr] at h
    cases h
    exact ⟨m'', hr⟩

/-- What fails in a scope of its own fails in the scope that is opened. -/
theorem Fails.of_inScope {body : Eval α} (h : Fails (inScope body) m e) :
    Fails body { m with environment := m.environment.push } e := by
  rw [inScope_eq_within] at h
  exact h.of_within

/-- A call fails with the error of its body. -/
theorem Fails.of_inCall {body : Eval α} (h : Fails (inCall body) m e) :
    Fails body { m with depth := m.depth + 1 } e := by
  rw [inCall_eq_within] at h
  exact h.of_within

/-- A sequence comes to a result through a result of its first evaluation. -/
theorem bind_eq_ok {action : Eval α} {next : α → Eval β} {b : β} {m'' : Machine}
    (h : (action >>= next) m = .ok b m'') :
    ∃ a m', action m = .ok a m' ∧ next a m' = .ok b m'' := by
  cases hr : action m with
  | ok a m' =>
    rw [bind_of_ok hr] at h
    exact ⟨a, m', rfl, h⟩
  | error e m' =>
    rw [bind_of_error hr] at h
    cases h

/-- A condition fails if its value is no truth value. -/
theorem Fails.truth_cases {statement : Keyword} {v : Value} (h : Fails (truth statement v) m e) :
    v.kind ≠ .bool ∧ e = .error (.expectedBool statement v.kind) := by
  cases v with
  | bool b => exact absurd h (not_fails_pure b)
  | unit | int | float | str | function => exact ⟨by simp [Value.kind], h.throw_eq⟩

/-- The test of a condition comes to the truth value that it is given and changes nothing. -/
theorem truth_eq_ok {statement : Keyword} {v : Value} {b : Bool} {m' : Machine}
    (h : truth statement v m = .ok b m') : v = .bool b ∧ m' = m := by
  cases v with
  | bool b' =>
    cases h
    exact ⟨rfl, rfl⟩
  | unit | int | float | str | function => cases h

/-- Looking up a name fails if it is not bound. -/
theorem Fails.lookup_cases {name : String} (h : Fails (lookup name) m e) :
    m.environment.lookup name = none ∧ e = .error (.unbound name) := by
  obtain ⟨m', h⟩ := h
  unfold lookup at h
  split at h
  · cases h
  · cases h
    exact ⟨by assumption, rfl⟩

/-- A declaration fails if the environment refuses it. -/
theorem Fails.declare_cases {name : String} {v : Value} {mutable : Bool}
    (h : Fails (declare name v mutable) m e) :
    m.environment.declare? name v mutable = none ∧ e = .error (.redeclared name) := by
  obtain ⟨m', h⟩ := h
  unfold declare at h
  split at h
  · cases h
  · cases h
    exact ⟨by assumption, rfl⟩

/-- An assignment fails for one of two reasons. -/
theorem Fails.assign_cases {name : String} {v : Value} (h : Fails (Eval.assign name v) m e) :
    e = .error (.unbound name) ∨ e = .error (.immutable name) := by
  obtain ⟨m', h⟩ := h
  unfold Eval.assign at h
  split at h
  · cases h
  · cases h
    exact .inl rfl
  · cases h
    exact .inr rfl

/-- A write fails for one reason only. -/
theorem Fails.writeLine_eq {origin : Origin} {line : String}
    (h : Fails (writeLine origin line) m e) : e = .error (.io Output.fullReason) := by
  obtain ⟨m', h⟩ := h
  unfold writeLine at h
  generalize m.output.write origin (line ++ "\n") = w at h
  obtain ⟨done, output⟩ := w
  cases done with
  | true => cases h
  | false =>
    cases h
    rfl

end Eval

/-! ## Errors of tasks -/

namespace Task

variable (bounds : Bounds)

/-- Performs a task, with the values that it comes to. -/
def perform : Task → Eval (List Value)
  | .expression e => do return [← bounds.expression e]
  | .expressions es => Expr.evalAll bounds.call bounds.rounds es
  | .statement s => do return [(← bounds.statement s).value]
  | .statements last ss => do return [(← Stmt.execAll bounds.call bounds.rounds last ss).value]
  | .block ss => do return [(← bounds.block ss).value]
  | .conditional c => do return [(← c.exec bounds.call bounds.rounds).value]
  | .alternative a => do return [(← a.exec bounds.call bounds.rounds).value]
  | .loop rounds condition ss => do
    let test : Eval Bool := do truth .whileKey (← bounds.expression condition)
    return [(← repeatWhile test (bounds.block ss) rounds).value]
  | .call traced f vs => do return [← bounds.call traced f vs]
  | .body f vs => do return [← f.enter bounds.call bounds.rounds vs]

/-- The errors that tasks may raise themselves when their parts do not fail. -/
inductive Raises : Task → Machine → Stop → Prop where
  | assign {target : String} {value : Expr} {v : Value} {m m' : Machine} {e : Stop}
      (h : bounds.expression value m = .ok v m') (hfails : Fails (Eval.assign target v) m' e) :
      Raises (.expression (.assign target value)) m e
  | binary {op : BinaryOp} {left right : Expr} {l r : Value} {m m' m'' : Machine}
      {cause : RuntimeError} (hl : bounds.expression left m = .ok l m')
      (hr : bounds.expression right m' = .ok r m'') (hfails : op.apply l r = .error cause) :
      Raises (.expression (.binary op left right)) m (.error cause)
  | cast {operand : Expr} {target : TypeName} {v : Value} {m m' : Machine} {cause : RuntimeError}
      (h : bounds.expression operand m = .ok v m') (hfails : v.cast target = .error cause) :
      Raises (.expression (.cast operand target)) m (.error cause)
  | unary {op : UnaryOp} {operand : Expr} {v : Value} {m m' : Machine} {cause : RuntimeError}
      (h : bounds.expression operand m = .ok v m') (hfails : op.apply v = .error cause) :
      Raises (.expression (.unary op operand)) m (.error cause)
  | notCallable {traced : Bool} {callee : Expr} {arguments : List Expr} {v : Value}
      {m m' : Machine} (h : bounds.expression callee m = .ok v m') (hfails : v.kind ≠ .function) :
      Raises (.expression (.call traced callee arguments)) m (.error (.notCallable v.kind))
  | unbound {name : String} {m : Machine} (h : m.environment.lookup name = none) :
      Raises (.expression (.name name)) m (.error (.unbound name))
  | function {name : String} {parameters : List Parameter} {body : List Stmt} {m : Machine}
      (h : m.environment.declare? name (.function (.user parameters body)) false = none) :
      Raises (.statement (.function name parameters body)) m (.error (.redeclared name))
  | declare {name : String} {mutable : Bool} {value : Expr} {v : Value} {m m' : Machine}
      (h : bounds.expression value m = .ok v m')
      (hfails : m'.environment.declare? name v mutable = none) :
      Raises (.statement (.declare name mutable value)) m (.error (.redeclared name))
  | condition {condition : Expr} {body : List Stmt} {otherwise : Alternative} {v : Value}
      {m m' : Machine} (h : bounds.expression condition m = .ok v m')
      (hfails : v.kind ≠ .bool) :
      Raises (.conditional (.mk condition body otherwise)) m (.error (.expectedBool .ifKey v.kind))
  | test {rounds : Nat} {condition : Expr} {body : List Stmt} {v : Value} {m m' : Machine}
      (h : bounds.expression condition m = .ok v m') (hfails : v.kind ≠ .bool) :
      Raises (.loop (rounds + 1) condition body) m (.error (.expectedBool .whileKey v.kind))
  | exhausted {condition : Expr} {body : List Stmt} {m : Machine} :
      Raises (.loop 0 condition body) m .exhausted
  | arity {traced : Bool} {f : Function} {vs : List Value} {m : Machine}
      (h : vs.length ≠ f.arity) :
      Raises (.call traced f vs) m (.error (.arityMismatch f.arity vs.length))
  | depth {traced : Bool} {f : Function} {vs : List Value} {m : Machine}
      (harity : vs.length = f.arity) (h : bounds.callDepth ≤ m.depth) :
      Raises (.call traced f vs) m (.error (.callDepthExceeded bounds.callDepth))
  /-- The call or its result cannot be reported. -/
  | report {f : Function} {vs : List Value} {m : Machine} (harity : vs.length = f.arity)
      (h : m.depth < bounds.callDepth) :
      Raises (.call true f vs) m (.error (.io Output.fullReason))
  | print {vs : List Value} {m : Machine} :
      Raises (.body .print vs) m (.error (.io Output.fullReason))
  | bind {parameters : List Parameter} {ss : List Stmt} {vs : List Value} {m : Machine} {e : Stop}
      (h : Fails (bindAll parameters vs) { m with environment := m.environment.push } e) :
      Raises (.body (.user parameters ss) vs) m e

variable {bounds}

/-- Whether an error of a task is one of its parts or raised by the task itself. -/
def Explains (bounds : Bounds) (t : Task) (m : Machine) (e : Stop) : Prop :=
  (∃ t' m', Part bounds t m t' m' ∧ Fails (t'.perform bounds) m' e) ∨ t.Raises bounds m e

variable {m : Machine} {stop : Stop}

/-- An error of a part explains that of the task. -/
theorem Explains.part {t t' : Task} {m' : Machine} (h : Part bounds t m t' m')
    (hfails : Fails (t'.perform bounds) m' stop) : t.Explains bounds m stop :=
  .inl ⟨t', m', h, hfails⟩

/-- The error of an expression comes from an operand, from the call that is made, or from the
operator, cast, assignment or name itself. -/
theorem explains_expression {e : Expr} (h : Fails (bounds.expression e) m stop) :
    (expression e).Explains bounds m stop := by
  unfold Bounds.expression at h
  -- The error is that of the first evaluation that fails, and the ones before it reach its machine.
  cases e with
  | assign target value =>
    rw [Expr.eval] at h
    obtain hvalue | ⟨v, m', hv, h⟩ := h.bind_cases
    · exact .part .assigned (hvalue.map _)
    · exact .inr (.assign hv h.of_map)
  | binary op left right =>
    rw [Expr.eval] at h
    obtain hleft | ⟨l, m', hl, h⟩ := h.bind_cases
    · exact .part .left (hleft.map _)
    · obtain hright | ⟨r, m'', hr, h⟩ := h.bind_cases
      · exact .part (.right hl) (hright.map _)
      · obtain ⟨cause, hcause, rfl⟩ := h.ofExcept_cases
        exact .inr (.binary hl hr hcause)
  | cast operand target =>
    rw [Expr.eval] at h
    obtain hoperand | ⟨v, m', hv, h⟩ := h.bind_cases
    · exact .part .casted (hoperand.map _)
    · obtain ⟨cause, hcause, rfl⟩ := h.ofExcept_cases
      exact .inr (.cast hv hcause)
  | unary op operand =>
    rw [Expr.eval] at h
    obtain hoperand | ⟨v, m', hv, h⟩ := h.bind_cases
    · exact .part .operand (hoperand.map _)
    · obtain ⟨cause, hcause, rfl⟩ := h.ofExcept_cases
      exact .inr (.unary hv hcause)
  | call traced callee arguments =>
    rw [Expr.eval] at h
    obtain hcallee | ⟨v, m', hv, h⟩ := h.bind_cases
    · exact .part .callee (hcallee.map _)
    · by_cases hfunction : v.kind = .function
      · obtain ⟨f, rfl⟩ : ∃ f, v = .function f := by
          cases v with
          | function f => exact ⟨f, rfl⟩
          | unit | int | float | str | bool => cases hfunction
        obtain harguments | ⟨vs, m'', hvs, h⟩ := h.bind_cases
        · exact .part (.arguments hv) harguments
        · exact .part (.call hv hvs) (h.map _)
      · -- No argument has been evaluated, as the test of the callee comes first.
        have hstop : stop = .error (.notCallable v.kind) := by
          cases v with
          | function f => exact absurd rfl hfunction
          | unit | int | float | str | bool => exact h.throw_eq
        exact hstop ▸ .inr (.notCallable hv hfunction)
  -- A lambda and a literal cannot fail.
  | lambda parameters body =>
    rw [Expr.eval] at h
    exact absurd h (not_fails_pure _)
  | name name =>
    rw [Expr.eval] at h
    obtain ⟨hname, rfl⟩ := h.lookup_cases
    exact .inr (.unbound hname)
  | paren inner =>
    rw [Expr.eval] at h
    exact .part .inner (h.map _)
  | literal value =>
    rw [Expr.eval] at h
    exact absurd h (not_fails_pure _)

/-- The error of arguments comes from one of them. -/
theorem explains_expressions {es : List Expr}
    (h : Fails (Expr.evalAll bounds.call bounds.rounds es) m stop) :
    (expressions es).Explains bounds m stop := by
  cases es with
  | nil =>
    rw [Expr.evalAll] at h
    exact absurd h (not_fails_pure _)
  | cons e es =>
    rw [Expr.evalAll] at h
    obtain hhead | ⟨v, m', hv, h⟩ := h.bind_cases
    · exact .part .head (hhead.map _)
    · exact .part (.tail hv) h.of_map

/-- The error of a statement comes from what it consists of, or it is a declaration that is
refused. -/
theorem explains_statement {s : Stmt} (h : Fails (bounds.statement s) m stop) :
    (statement s).Explains bounds m stop := by
  unfold Bounds.statement at h
  cases s with
  | function name parameters body =>
    rw [Stmt.exec] at h
    obtain ⟨hname, rfl⟩ := h.of_map.declare_cases
    exact .inr (.function hname)
  | declare name mutable value =>
    rw [Stmt.exec] at h
    obtain hvalue | ⟨v, m', hv, h⟩ := h.bind_cases
    · exact .part .declared (hvalue.map _)
    · obtain ⟨hname, rfl⟩ := h.of_map.declare_cases
      exact .inr (.declare hv hname)
  | loop condition body =>
    rw [Stmt.exec] at h
    exact .part .loop (h.map _)
  | conditional c =>
    rw [Stmt.exec] at h
    exact .part .conditional (h.map _)
  | leave value =>
    cases value with
    | none =>
      rw [Stmt.exec] at h
      exact absurd h (not_fails_pure _)
    | some value =>
      rw [Stmt.exec] at h
      exact .part .returned (h.of_map.map _)
  | expression e =>
    rw [Stmt.exec] at h
    exact .part .expression (h.of_map.map _)
  | empty =>
    rw [Stmt.exec] at h
    exact absurd h (not_fails_pure _)

/-- The error of statements comes from one of them. -/
theorem explains_statements {last : Value} {ss : List Stmt}
    (h : Fails (Stmt.execAll bounds.call bounds.rounds last ss) m stop) :
    (statements last ss).Explains bounds m stop := by
  cases ss with
  | nil =>
    rw [Stmt.execAll] at h
    exact absurd h (not_fails_pure _)
  | cons s ss =>
    rw [Stmt.execAll] at h
    -- A statement that is left does not let the others begin.
    obtain hfirst | ⟨flow, m', hflow, h⟩ := h.bind_cases
    · exact .part .first (hfirst.map _)
    · cases flow with
      | normal v => exact .part (.rest hflow) (h.map _)
      | leave v => exact absurd h (not_fails_pure _)

/-- The error of a conditional comes from its condition or the branch that is taken, or the
condition has no truth value. -/
theorem explains_conditional {c : Conditional}
    (h : Fails (c.exec bounds.call bounds.rounds) m stop) :
    (conditional c).Explains bounds m stop := by
  cases c with
  | mk condition body otherwise =>
    rw [Conditional.exec] at h
    obtain hcondition | ⟨v, m', hv, h⟩ := h.bind_cases
    · exact .part .condition (hcondition.map _)
    · obtain htruth | ⟨b, m'', hb, h⟩ := h.bind_cases
      · obtain ⟨hkind, rfl⟩ := htruth.truth_cases
        exact .inr (.condition hv hkind)
      · obtain ⟨rfl, rfl⟩ := truth_eq_ok hb
        -- Only the branch that the condition selects is a part that is visited.
        cases b with
        | true => exact .part (.holds hv) (h.of_map.map _)
        | false => exact .part (.fails hv) (h.of_map.map _)

/-- The error of what is executed otherwise comes from its block or conditional. -/
theorem explains_alternative {a : Alternative}
    (h : Fails (a.exec bounds.call bounds.rounds) m stop) :
    (alternative a).Explains bounds m stop := by
  cases a with
  | nothing =>
    rw [Alternative.exec] at h
    exact absurd h (not_fails_pure _)
  | block body =>
    rw [Alternative.exec] at h
    exact .part .otherwise (h.map _)
  | chain c =>
    rw [Alternative.exec] at h
    exact .part .chain (h.map _)

/-- The error of a loop comes from its condition, from the next round or from the rounds behind it,
or the condition has no truth value, or no rounds are left. -/
theorem explains_loop {rounds : Nat} {condition : Expr} {body : List Stmt}
    (h : Fails (repeatWhile (bounds.expression condition >>= truth .whileKey) (bounds.block body)
      rounds) m stop) :
    (loop rounds condition body).Explains bounds m stop := by
  -- The rounds are those that are left, so a round that is completed is a part with one less.
  cases rounds with
  | zero =>
    rw [repeatWhile] at h
    obtain rfl := h.throw_eq
    exact .inr .exhausted
  | succ rounds =>
    rw [repeatWhile] at h
    obtain htest | ⟨b, m', hb, h⟩ := h.bind_cases
    · obtain hcondition | ⟨v, m', hv, htruth⟩ := htest.bind_cases
      · exact .part .test (hcondition.map _)
      · obtain ⟨hkind, rfl⟩ := htruth.truth_cases
        exact .inr (.test hv hkind)
    · -- The test has come to a truth value, which is that of the condition.
      obtain ⟨v, m₁, hv, htruth⟩ := bind_eq_ok hb
      obtain ⟨rfl, rfl⟩ := truth_eq_ok htruth
      cases b with
      | false => exact absurd h (not_fails_pure _)
      | true =>
        obtain hround | ⟨flow, m'', hflow, h⟩ := h.bind_cases
        · exact .part (.round hv) (hround.map _)
        · cases flow with
          | normal v => exact .part (.again hv hflow) (h.map _)
          | leave v => exact absurd h (not_fails_pure _)

/-- The error of a call comes from the body of the function, or the call cannot be made or
reported. -/
theorem explains_call {traced : Bool} {f : Function} {vs : List Value}
    (h : Fails (bounds.call traced f vs) m stop) : (call traced f vs).Explains bounds m stop := by
  unfold Fails at h
  rw [bounds.call_unfold] at h
  by_cases harity : vs.length = f.arity
  · rw [if_pos harity] at h
    -- The number of arguments is tested before the room for the call.
    by_cases hdepth : m.depth < bounds.callDepth
    · rw [if_pos hdepth] at h
      replace h := Fails.of_inCall h
      -- A traced call is reported in front of the body, and its result behind it.
      cases traced with
      | false => exact .part (.body harity hdepth rfl) (h.map _)
      | true =>
        obtain hreport | ⟨_, m', hreport, h⟩ := h.bind_cases
        · obtain rfl := hreport.writeLine_eq
          exact .inr (.report harity hdepth)
        · obtain hbody | ⟨result, m'', hresult, h⟩ := h.bind_cases
          · exact .part (.body harity hdepth hreport) (hbody.map _)
          · obtain rfl := h.of_map.writeLine_eq
            exact .inr (.report harity hdepth)
    · rw [if_neg hdepth] at h
      obtain ⟨_, h⟩ := h
      cases h
      exact .inr (.depth harity (Nat.le_of_not_lt hdepth))
  · rw [if_neg harity] at h
    obtain ⟨_, h⟩ := h
    cases h
    exact .inr (.arity harity)

/-- The error of a body comes from its statements or halves, or an argument cannot be bound or a
line cannot be printed. -/
theorem explains_body {f : Function} {vs : List Value}
    (h : Fails (f.enter bounds.call bounds.rounds vs) m stop) :
    (body f vs).Explains bounds m stop := by
  cases f with
  | print =>
    rw [Function.enter] at h
    have hstop : stop = .error (.io Output.fullReason) := by
      -- The lines are printed one by one, and the first one that has no room is the error.
      replace h := h.of_map
      induction vs generalizing m with
      | nil => exact absurd h (not_fails_pure ())
      | cons v vs ih =>
        obtain hline | ⟨_, m', -, h⟩ := h.bind_cases
        · exact hline.writeLine_eq
        · exact ih h
    subst hstop
    exact .inr .print
  | user parameters ss =>
    rw [Function.enter] at h
    -- The parameters are bound in the scope of the call, in front of the body.
    obtain hbind | ⟨_, m', hbind, h⟩ := h.of_inScope.bind_cases
    · exact .inr (.bind hbind)
    · exact .part (.user hbind) (h.of_map.map _)
  | composed first second =>
    rw [Function.enter] at h
    obtain hfirst | ⟨v, m', hv, h⟩ := h.bind_cases
    · exact .part .firstHalf (hfirst.map _)
    · exact .part (.secondHalf hv) (h.map _)

/-- A task fails because one of its parts fails with the same error, or it raises the error. -/
theorem explains_of_fails {t : Task} (h : Fails (t.perform bounds) m stop) :
    t.Explains bounds m stop := by
  cases t with
  | expression e => exact explains_expression h.of_map
  | expressions es => exact explains_expressions h
  | statement s => exact explains_statement h.of_map
  | statements last ss => exact explains_statements h.of_map
  | block ss => exact .part .inBlock (h.of_map.of_inScope.map _)
  | conditional c => exact explains_conditional h.of_map
  | alternative a => exact explains_alternative h.of_map
  | loop rounds condition body => exact explains_loop h.of_map
  | call traced f vs => exact explains_call h.of_map
  | body f vs => exact explains_body h.of_map

end Task

/-! ## Origins of errors -/

namespace Task

/-- The size of what a task has to do before the next call is entered. Blocks and loops stand
between a tree and its parts, for which the factor leaves room. -/
noncomputable def size : Task → Nat
  | expression e => 3 * sizeOf e
  | expressions es => 3 * sizeOf es
  | statement s => 3 * sizeOf s
  | statements _ ss => 3 * sizeOf ss
  | block ss => 3 * sizeOf ss + 1
  | conditional c => 3 * sizeOf c
  | alternative a => 3 * sizeOf a
  | loop _ condition ss => 3 * (sizeOf condition + sizeOf ss) + 2
  | call _ _ _ => 0
  | body (.user _ ss) _ => 3 * sizeOf ss + 1
  | body _ _ => 1

/-- The rounds that are left if the task is a loop. -/
def roundsLeft : Task → Nat
  | loop rounds _ _ => rounds
  | expression _ | expressions _ | statement _ | statements _ _ | block _ | conditional _
  | alternative _ | call _ _ _ | body _ _ => 0

/-- What decreases from a task to its parts: the calls that may still be entered, then the tree, and
then the rounds of a loop. -/
noncomputable def rank (bounds : Bounds) (p : Task × Machine) : Nat ×ₗ Nat ×ₗ Nat :=
  toLex (bounds.callDepth - p.2.depth, toLex (p.1.size, p.1.roundsLeft))

end Task

/-- A part is the body of a function for which a call is entered, or smaller, or the same loop with
fewer rounds left. -/
theorem Part.decreases {bounds : Bounds} {t t' : Task} {m m' : Machine}
    (h : Part bounds t m t' m') :
    m.depth < bounds.callDepth ∧ t'.calls = 1 ∨ t'.calls = 0 ∧
      (t'.size < t.size ∨ t'.size = t.size ∧ t'.roundsLeft < t.roundsLeft) := by
  cases h with
  -- A call is where sizes say nothing: the body of the function may be any tree.
  | body harity hdepth h => exact .inl ⟨hdepth, rfl⟩
  | again h h' => exact .inr ⟨rfl, .inr ⟨rfl, Nat.lt_succ_self _⟩⟩
  | assigned | left | right | casted | operand | inner | callee | arguments | call | head | tail
  | declared | loop | conditional | returned | expression | first | rest | inBlock | condition
  | holds | fails | otherwise | chain | test | round | user | firstHalf | secondHalf =>
    refine .inr ⟨rfl, .inl ?_⟩
    simp [Task.size] <;> omega

/-- The rank of a part is lower than that of the task: if a call is entered, the calls that may
still be are fewer, and otherwise the trees are smaller or the rounds fewer. -/
theorem Part.rank_lt {bounds : Bounds} {t t' : Task} {m m' : Machine} (h : Part bounds t m t' m') :
    Task.rank bounds (t', m') < Task.rank bounds (t, m) := by
  have hdepth : m'.depth = m.depth + t'.calls := h.depth_eq.1
  unfold Task.rank
  rw [Prod.Lex.toLex_lt_toLex, Prod.Lex.toLex_lt_toLex]
  dsimp only
  -- A call makes the first component smaller, and everything else keeps it.
  obtain ⟨hroom, hcalls⟩ | ⟨hcalls, hsize⟩ := h.decreases
  · exact .inl (by omega)
  · exact .inr ⟨by omega, hsize⟩

/-- Performing a task does not go on with its parts forever. -/
theorem Part.wellFounded (bounds : Bounds) :
    WellFounded fun p q : Task × Machine => Part bounds q.1 q.2 p.1 p.2 :=
  Subrelation.wf Part.rank_lt (InvImage.wf (Task.rank bounds) wellFounded_lt)

/-- What a part of a task visits, the task visits. -/
theorem Task.Visits.of_part {bounds : Bounds} {t t' t'' : Task} {m m' m'' : Machine} {n : Nat}
    (h : Part bounds t m t' m') (hvisits : t'.Visits bounds m' n t'' m'') :
    t.Visits bounds m (t'.calls + n) t'' m'' := by
  induction hvisits with
  | start =>
    have hpart := Visits.part .start h
    rwa [Nat.zero_add] at hpart
  | part _ hpart ih => exact Nat.add_assoc _ _ _ ▸ .part ih hpart

/-- Every error has an origin: a task that is visited raises it. -/
theorem Task.exists_origin {bounds : Bounds} {t : Task} {m : Machine} {e : Stop}
    (h : Fails (t.perform bounds) m e) :
    ∃ n t' m', t.Visits bounds m n t' m' ∧ t'.Raises bounds m' e := by
  suffices horigin : ∀ p : Task × Machine, Fails (p.1.perform bounds) p.2 e →
      ∃ n t' m', p.1.Visits bounds p.2 n t' m' ∧ t'.Raises bounds m' e from horigin (t, m) h
  intro p
  -- The induction is on the parts, which are fewer calls or smaller trees or fewer rounds away.
  induction p using (Part.wellFounded bounds).induction with
  | _ p ih =>
    intro hfails
    obtain ⟨t', m', hpart, hfails'⟩ | hraises := explains_of_fails hfails
    · obtain ⟨n, t'', m'', hvisits, hraises⟩ := ih (t', m') hpart hfails'
      exact ⟨t'.calls + n, t'', m'', .of_part hpart hvisits, hraises⟩
    · exact ⟨0, p.1, p.2, .start, hraises⟩

end Brisk
