import Brisk.Proofs.Environment.Demand
import Brisk.Proofs.Evaluation.Ends

/-!
# Evaluations that meet a demand

If all functions and loops in a tree meet a demand, and all functions that are bound in the
environment do, then so do all functions that the tree is evaluated to, and all that are bound
afterwards, however the evaluation ends. And it runs out of rounds only if there may be loops.

`Yields d P action` says this of an evaluation with results that have the property `P`. It is closed
under sequencing, so trees need one short case for each constructor, provided that calls of such
functions with such arguments are such evaluations (`Expr.eval_yields` and its companions). Calls
follow by induction on how many of them may still be nested (`Function.call_yields`): the body of a
function, which is not part of the tree in which the function is called, is one that meets the
demand because the function is a value that does.
-/

namespace Brisk

open Eval

namespace Eval

variable {α β : Type} {d : Demand} {P : α → Prop} {Q : β → Prop}

/-- There is a result with a property, or an error that is no want of rounds unless there may be
loops, and the functions in the environment meet the demand. -/
inductive Outcome.Meets (d : Demand) (P : α → Prop) : Outcome α → Prop where
  | ok {a : α} {m : Machine} (ha : P a) (hm : m.environment.Meets d) : Meets d P (.ok a m)
  | error {e : Stop} {m : Machine} (he : e = .exhausted → d.loops)
      (hm : m.environment.Meets d) : Meets d P (.error e m)

/-- In an environment with functions that meet a demand, an evaluation does as well. -/
def Yields (d : Demand) (P : α → Prop) (action : Eval α) : Prop :=
  ∀ m : Machine, m.environment.Meets d → Outcome.Meets d P (action m)

/-- Calls of functions that meet a demand, with arguments that do, yield values that do. -/
def CallsYield (d : Demand) (call : Call) : Prop :=
  ∀ (traced : Bool) (f : Function) (vs : List Value), f.Meets d → (∀ v ∈ vs, v.Meets d) →
    Yields d (Value.Meets d) (call traced f vs)

/-- A result that was come to meets what was asked of it, and so does the environment that is
left. -/
theorem Yields.ok {action : Eval α} (h : Yields d P action) {m m' : Machine} {a : α}
    (hm : m.environment.Meets d) (he : action m = .ok a m') : P a ∧ m'.environment.Meets d := by
  have houtcome := h m hm
  rw [he] at houtcome
  cases houtcome with
  | ok ha hm' => exact ⟨ha, hm'⟩

/-- An error leaves an environment that meets the demand, and only loops run out of rounds. -/
theorem Yields.error {action : Eval α} (h : Yields d P action) {m m' : Machine} {e : Stop}
    (hm : m.environment.Meets d) (he : action m = .error e m') :
    (e = .exhausted → d.loops) ∧ m'.environment.Meets d := by
  have houtcome := h m hm
  rw [he] at houtcome
  cases houtcome with
  | error hloops hm' => exact ⟨hloops, hm'⟩

/-! ## Sequencing and loops -/

/-- A result that meets what is asked of it is yielded. -/
theorem yields_pure {a : α} (ha : P a) : Yields d P (pure a) := fun _ hm => .ok ha hm

/-- An error may always end an evaluation. -/
theorem yields_fail (e : RuntimeError) : Yields d P (fail e) := fun _ hm => .error nofun hm

/-- A result that may be an error is yielded if it meets what is asked of it. -/
theorem yields_ofExcept {r : Except RuntimeError α} (h : ∀ a, r = .ok a → P a) :
    Yields d P (ofExcept r) := by
  cases r with
  | ok a => exact yields_pure (h a rfl)
  | error e => exact yields_fail e

/-- A sequence yields what its last evaluation yields for every result of the first one. -/
theorem yields_bind {action : Eval α} {next : α → Eval β} (h : Yields d P action)
    (hnext : ∀ a, P a → Yields d Q (next a)) : Yields d Q (action >>= next) := by
  intro m hm
  cases hr : action m with
  | ok a m' =>
    obtain ⟨ha, hm'⟩ := h.ok hm hr
    rw [bind_of_ok hr]
    exact hnext a ha m' hm'
  | error e m' =>
    obtain ⟨he, hm'⟩ := h.error hm hr
    rw [bind_of_error hr]
    exact .error he hm'

/-- Nothing is asked of the test of a condition. -/
theorem yields_truth (statement : Keyword) (v : Value) :
    Yields d (fun _ => True) (truth statement v) := by
  cases v with
  | bool b => exact yields_pure trivial
  | unit | int | float | str | function => exact yields_fail _

/-- A loop may run out of rounds, and does what its rounds do. -/
theorem yields_repeatWhile (hloops : d.loops) {test : Eval Bool} {body : Eval Flow}
    (htest : Yields d (fun _ => True) test) (hbody : Yields d (Flow.Meets d) body)
    (rounds : Nat) : Yields d (Flow.Meets d) (repeatWhile test body rounds) := by
  -- Only a loop can run out of rounds, so the demand must admit loops.
  induction rounds with
  | zero => exact fun _ hm => .error (fun _ => hloops) hm
  | succ rounds ih =>
    unfold repeatWhile
    refine yields_bind htest fun goesOn _ => ?_
    cases goesOn with
    | false => exact yields_pure trivial
    | true =>
      refine yields_bind hbody fun flow hflow => ?_
      cases flow with
      -- The value of the round is dropped, and the loop goes on as a shorter one.
      | normal v => exact ih
      | leave v => exact yields_pure hflow

/-! ## Basic evaluations -/

/-- In a changed machine, an evaluation meets a demand if no change breaks the demand. -/
theorem yields_within {enter leave : Machine → Machine} {body : Eval α}
    (henter : ∀ m, m.environment.Meets d → (enter m).environment.Meets d)
    (hleave : ∀ m, m.environment.Meets d → (leave m).environment.Meets d)
    (h : Yields d P body) : Yields d P (within enter leave body) := by
  intro m hm
  unfold within
  cases hr : body (enter m) with
  | ok a m' =>
    obtain ⟨ha, hm'⟩ := h.ok (henter m hm) hr
    exact .ok ha (hleave m' hm')
  | error e m' =>
    obtain ⟨he, hm'⟩ := h.error (henter m hm) hr
    exact .error he (hleave m' hm')

/-- A scope that is opened has no functions, and closing it takes functions away only. -/
theorem yields_inScope {body : Eval α} (h : Yields d P body) : Yields d P (inScope body) := by
  rw [inScope_eq_within]
  exact yields_within (fun _ hm => hm.push) (fun _ hm => hm.pop) h

/-- Counting calls does not touch the environment. -/
theorem yields_inCall {body : Eval α} (h : Yields d P body) : Yields d P (inCall body) := by
  rw [inCall_eq_within]
  exact yields_within (fun _ hm => hm) (fun _ hm => hm) h

/-- The value of a name is one of the environment, which meets the demand. -/
theorem yields_lookup (name : String) : Yields d (Value.Meets d) (lookup name) := by
  intro m hm
  unfold lookup
  cases hl : m.environment.lookup name with
  | some v => exact .ok (hm.lookup hl) hm
  | none => exact .error nofun hm

/-- A declaration puts a value into the environment that meets the demand. -/
theorem yields_declare (name : String) {v : Value} (hv : v.Meets d) (mutable : Bool) :
    Yields d (fun _ => True) (declare name v mutable) := by
  intro m hm
  unfold declare
  cases hd : m.environment.declare? name v mutable with
  | some env => exact .ok trivial (hm.declare? hv hd)
  | none => exact .error nofun hm

/-- An assignment puts a value into the environment that meets the demand. -/
theorem yields_assign (name : String) {v : Value} (hv : v.Meets d) :
    Yields d (fun _ => True) (Eval.assign name v) := by
  intro m hm
  unfold Eval.assign
  cases ha : m.environment.assign name v with
  | ok env => exact .ok trivial (hm.assign hv ha)
  | error e => cases e <;> exact .error nofun hm

/-- Binding parameters puts values into the environment that meet the demand. -/
theorem yields_bindAll (ps : List Parameter) {vs : List Value} (hvs : ∀ v ∈ vs, v.Meets d) :
    Yields d (fun _ => True) (bindAll ps vs) := by
  induction ps generalizing vs with
  | nil => exact yields_pure trivial
  | cons p ps ih =>
    cases vs with
    | nil => exact yields_pure trivial
    | cons v vs =>
      rw [List.forall_mem_cons] at hvs
      exact yields_bind (yields_declare p.name hvs.1 p.mutable) fun _ _ => ih hvs.2

/-- Writing a line does not touch the environment. -/
theorem yields_writeLine (origin : Origin) (line : String) :
    Yields d (fun _ => True) (writeLine origin line) := by
  intro m hm
  unfold writeLine
  obtain ⟨done, output⟩ := m.output.write origin (line ++ "\n")
  cases done with
  | true => exact .ok trivial hm
  | false => exact .error nofun hm

end Eval

/-! ## Trees -/

variable {d : Demand}

section Tree

variable {call : Call} {rounds : Nat}

mutual

/-- An expression that meets a demand yields values that do, if calls do. -/
theorem Expr.eval_yields (hcall : CallsYield d call) :
    ∀ e : Expr, e.Meets d → Yields d (Value.Meets d) (e.eval call rounds)
  | .assign target value, h => by
    rw [Expr.Meets] at h
    rw [Expr.eval]
    refine yields_bind (value.eval_yields hcall h) fun v hv => ?_
    exact yields_bind (yields_assign target hv) fun _ _ => yields_pure hv
  | .binary op left right, h => by
    rw [Expr.Meets] at h
    rw [Expr.eval]
    refine yields_bind (left.eval_yields hcall h.1) fun l hl => ?_
    refine yields_bind (right.eval_yields hcall h.2) fun r hr => ?_
    -- An operator makes no function but the composition of two that meet the demand.
    exact yields_ofExcept fun _ => BinaryOp.meets_apply hl hr
  | .cast operand target, h => by
    rw [Expr.Meets] at h
    rw [Expr.eval]
    refine yields_bind (operand.eval_yields hcall h) fun v _ => ?_
    exact yields_ofExcept fun _ => (v.cast_operates target).meets
  | .unary op operand, h => by
    rw [Expr.Meets] at h
    rw [Expr.eval]
    refine yields_bind (operand.eval_yields hcall h) fun v _ => ?_
    exact yields_ofExcept fun _ => (op.apply_operates v).meets
  | .call traced callee arguments, h => by
    rw [Expr.Meets] at h
    rw [Expr.eval]
    refine yields_bind (callee.eval_yields hcall h.1) fun v hv => ?_
    -- The arguments are only evaluated if there is a function to call.
    cases v with
    | function f =>
      exact yields_bind (Expr.evalAll_yields hcall arguments h.2) fun vs hvs =>
        hcall traced f vs hv hvs
    | unit | int | float | str | bool => exact yields_fail _
  | .lambda parameters body, h => by
    rw [Expr.Meets] at h
    rw [Expr.eval]
    -- The body of a lambda meets the demand as a part of the tree, and from now on in a value.
    exact yields_pure h
  | .name name, _ => by
    rw [Expr.eval]
    exact yields_lookup name
  | .paren inner, h => by
    rw [Expr.Meets] at h
    rw [Expr.eval]
    exact inner.eval_yields hcall h
  | .literal value, _ => by
    rw [Expr.eval]
    exact yields_pure (Value.meets_ofLiteral value)

/-- Arguments that meet a demand yield values that do. -/
theorem Expr.evalAll_yields (hcall : CallsYield d call) :
    ∀ es : List Expr, Expr.AllMeet d es →
      Yields d (fun vs => ∀ v ∈ vs, v.Meets d) (Expr.evalAll call rounds es)
  | [], _ => by
    rw [Expr.evalAll]
    exact yields_pure (by simp)
  | e :: es, h => by
    rw [Expr.AllMeet] at h
    rw [Expr.evalAll]
    refine yields_bind (e.eval_yields hcall h.1) fun v hv => ?_
    refine yields_bind (Expr.evalAll_yields hcall es h.2) fun vs hvs => ?_
    exact yields_pure (List.forall_mem_cons.mpr ⟨hv, hvs⟩)

/-- A statement that meets a demand ends with a value that does. -/
theorem Stmt.exec_yields (hcall : CallsYield d call) :
    ∀ s : Stmt, s.Meets d → Yields d (Flow.Meets d) (s.exec call rounds)
  | .function name parameters body, h => by
    rw [Stmt.Meets] at h
    rw [Stmt.exec]
    have hf : (Value.function (.user parameters body)).Meets d := h
    exact yields_bind (yields_declare name hf false) fun _ _ => yields_pure trivial
  | .declare name mutable value, h => by
    rw [Stmt.Meets] at h
    rw [Stmt.exec]
    refine yields_bind (value.eval_yields hcall h) fun v hv => ?_
    exact yields_bind (yields_declare name hv mutable) fun _ _ => yields_pure trivial
  | .loop condition body, h => by
    rw [Stmt.Meets] at h
    rw [Stmt.exec]
    obtain ⟨hloops, hcondition, hbody⟩ := h
    have htest := yields_bind (condition.eval_yields hcall hcondition) fun v _ =>
      yields_truth .whileKey v
    exact yields_repeatWhile hloops htest
      (yields_inScope (Stmt.execAll_yields hcall .unit body trivial hbody)) rounds
  | .conditional c, h => by
    rw [Stmt.Meets] at h
    rw [Stmt.exec]
    exact c.exec_yields hcall h
  | .leave none, _ => by
    rw [Stmt.exec]
    exact yields_pure trivial
  | .leave (some value), h => by
    rw [Stmt.Meets] at h
    rw [Stmt.exec]
    exact yields_bind (value.eval_yields hcall h) fun v hv => yields_pure hv
  | .expression e, h => by
    rw [Stmt.Meets] at h
    rw [Stmt.exec]
    exact yields_bind (e.eval_yields hcall h) fun v hv => yields_pure hv
  | .empty, _ => by
    rw [Stmt.exec]
    exact yields_pure trivial

/-- Statements that meet a demand yield a value that does, be it that of the last one. -/
theorem Stmt.execAll_yields (hcall : CallsYield d call) :
    ∀ (last : Value) (ss : List Stmt), last.Meets d → Stmt.AllMeet d ss →
      Yields d (Flow.Meets d) (Stmt.execAll call rounds last ss)
  | last, [], hlast, _ => by
    rw [Stmt.execAll]
    exact yields_pure hlast
  | last, s :: ss, _, h => by
    rw [Stmt.AllMeet] at h
    rw [Stmt.execAll]
    refine yields_bind (s.exec_yields hcall h.1) fun flow hflow => ?_
    cases flow with
    | normal v => exact Stmt.execAll_yields hcall v ss hflow h.2
    | leave v => exact yields_pure hflow

/-- A conditional that meets a demand yields a value that does, in either branch. -/
theorem Conditional.exec_yields (hcall : CallsYield d call) :
    ∀ c : Conditional, c.Meets d → Yields d (Flow.Meets d) (c.exec call rounds)
  | .mk condition body otherwise, h => by
    rw [Conditional.Meets] at h
    rw [Conditional.exec]
    obtain ⟨hcondition, hbody, hotherwise⟩ := h
    refine yields_bind (condition.eval_yields hcall hcondition) fun v _ => ?_
    refine yields_bind (yields_truth _ v) fun holds _ => ?_
    cases holds with
    | true =>
      have hblock := yields_inScope (Stmt.execAll_yields hcall .unit body trivial hbody)
      exact yields_bind hblock fun flow hflow => yields_pure hflow.settle
    | false =>
      exact yields_bind (otherwise.exec_yields hcall hotherwise) fun flow hflow =>
        yields_pure hflow.settle

/-- What is executed otherwise yields a value that meets the demand if it does itself. -/
theorem Alternative.exec_yields (hcall : CallsYield d call) :
    ∀ a : Alternative, a.Meets d → Yields d (Flow.Meets d) (a.exec call rounds)
  | .nothing, _ => by
    rw [Alternative.exec]
    exact yields_pure trivial
  | .block body, h => by
    rw [Alternative.Meets] at h
    rw [Alternative.exec]
    exact yields_inScope (Stmt.execAll_yields hcall .unit body trivial h)
  | .chain c, h => by
    rw [Alternative.Meets] at h
    rw [Alternative.exec]
    exact c.exec_yields hcall h

end

/-! ## Calls -/

variable (hcall : CallsYield d call)
include hcall

/-- The body of a function that meets a demand yields a value that does, from arguments that do. -/
theorem Function.enter_yields {f : Function} (hf : f.Meets d) {vs : List Value}
    (hvs : ∀ v ∈ vs, v.Meets d) : Yields d (Value.Meets d) (f.enter call rounds vs) := by
  cases f with
  -- What is printed is written only, so the demand on the arguments is not needed.
  | print =>
    rw [Function.enter]
    have hlines : Yields d (fun _ => True) (vs.forM fun v => writeLine .print v.text) := by
      clear hvs
      induction vs with
      | nil => exact yields_pure trivial
      | cons v vs ih => exact yields_bind (yields_writeLine .print v.text) fun _ _ => ih
    exact yields_bind hlines fun _ _ => yields_pure trivial
  | user parameters body =>
    rw [Function.enter]
    refine yields_inScope (yields_bind (yields_bindAll parameters hvs) fun _ _ => ?_)
    -- The body is not part of the tree with the call, but of a value that meets the demand.
    have hbody : Yields d (Flow.Meets d) (Stmt.execAll call rounds .unit body) :=
      Stmt.execAll_yields hcall .unit body trivial hf.2
    exact yields_bind hbody fun flow hflow => yields_pure hflow.returned
  | composed first second =>
    rw [Function.enter]
    -- A composed function meets the demand because both of its halves do.
    obtain ⟨hfirst, hsecond, -, -⟩ := hf
    refine yields_bind (hcall false first vs hfirst hvs) fun v hv => ?_
    exact hcall false second [v] hsecond (by simpa using hv)

/-- The body of a function that meets a demand yields a value that does, from arguments that do,
between the lines that report a traced call. -/
theorem Function.enterTraced_yields (traced : Bool) {f : Function} (hf : f.Meets d)
    {vs : List Value} (hvs : ∀ v ∈ vs, v.Meets d) :
    Yields d (Value.Meets d) (f.enterTraced call rounds traced vs) := by
  have henter : Yields d (Value.Meets d) (f.enter call rounds vs) :=
    Function.enter_yields hcall hf hvs
  unfold Function.enterTraced
  cases traced with
  | false => exact henter
  | true =>
    refine yields_bind (yields_writeLine _ _) fun _ _ => ?_
    refine yields_bind henter fun result hresult => ?_
    exact yields_bind (yields_writeLine _ _) fun _ _ => yields_pure hresult

end Tree

/-- Calls of functions that meet a demand yield values that do, however many calls may still be
nested. -/
theorem Function.call_yields (bounds : Bounds) (depth : Nat) :
    CallsYield d (Function.call bounds depth) := by
  -- The induction is on the calls that may still be nested.
  induction depth with
  | zero =>
    intro traced f vs _ _
    unfold Function.call
    split
    · exact yields_fail _
    · exact yields_fail _
  | succ depth ih =>
    intro traced f vs hf hvs
    unfold Function.call
    split
    · exact yields_inCall (Function.enterTraced_yields ih traced hf hvs)
    · exact yields_fail _

namespace Bounds

variable (bounds : Bounds)

/-- Calls yield values that meet a demand, as deep as there is room for them. -/
theorem call_yields : CallsYield d bounds.call :=
  fun traced f vs hf hvs m =>
    Function.call_yields bounds (bounds.callDepth - m.depth) traced f vs hf hvs m

/-- Expressions that meet a demand yield values that do. -/
theorem expression_yields {e : Expr} (h : e.Meets d) :
    Yields d (Value.Meets d) (bounds.expression e) :=
  e.eval_yields bounds.call_yields h

/-- Statements that meet a demand yield values that do. -/
theorem statements_yields {ss : List Stmt} (h : Stmt.AllMeet d ss) :
    Yields d (Flow.Meets d) (bounds.statements ss) :=
  Stmt.execAll_yields bounds.call_yields .unit ss trivial h

/-- Programs that meet a demand yield values that do. -/
theorem run_yields {p : Program} (h : p.Meets d) :
    Yields d (Value.Meets d) (bounds.run p) := by
  have hblock := yields_inScope (bounds.statements_yields h)
  have hprogram : Yields d (Flow.Meets d) (bounds.program p) :=
    yields_bind hblock fun _ hflow => yields_pure hflow.value
  exact yields_bind hprogram fun _ hflow => yields_pure hflow.value

/-- Programs in a session that meet a demand yield values that do. -/
theorem runInSession_yields {p : Program} (h : p.Meets d) :
    Yields d (Value.Meets d) (bounds.runInSession p) :=
  yields_bind (bounds.statements_yields h) fun _ hflow => yields_pure hflow.value

end Bounds

end Brisk
