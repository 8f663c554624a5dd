import Brisk.Proofs.Evaluation.InStep

/-!
# Evaluations that do not look at the calls in progress

A machine counts the calls in progress, and the only use of the count is the room that it leaves for
further ones. With a fixed number of calls that may still be nested, a call therefore does the same
however many are in progress (`Function.call_depthFree`), and evaluating in a call of its own is
like evaluating directly (`inCall_eq_self`).

That two evaluations are in step is known for machines that count equally many calls only, so the
trees are gone through once more, with one short case for each constructor.
-/

namespace Brisk

/-- Machines that may differ in the number of calls in progress only. -/
structure Machine.Matches (m m' : Machine) : Prop where
  environment_eq : m'.environment = m.environment
  output_eq : m'.output = m.output

namespace Eval

variable {α β : Type}

/-- The evaluation does the same however many calls are in progress. -/
def DepthFree (action : Eval α) : Prop := InStep Machine.Matches id action action

/-- A result has nothing to do with the calls in progress. -/
theorem depthFree_pure (a : α) : DepthFree (pure a) := inStep_pure id a

/-- An error has nothing to do with the calls in progress. -/
theorem depthFree_throw (e : Stop) : DepthFree (throw e : Eval α) := inStep_throw id e

/-- A sequence looks at the calls in progress only if a part of it does. -/
theorem depthFree_bind {action : Eval α} {next : α → Eval β} (h : DepthFree action)
    (hnext : ∀ a, DepthFree (next a)) : DepthFree (action >>= next) :=
  inStep_bind h hnext

/-- A result that may be an error has nothing to do with the calls in progress. -/
theorem depthFree_ofExcept (r : Except RuntimeError α) : DepthFree (ofExcept r) := by
  cases r with
  | ok a => exact depthFree_pure a
  | error e => exact depthFree_throw _

/-- The test of a condition has nothing to do with the calls in progress. -/
theorem depthFree_truth (statement : Keyword) (v : Value) : DepthFree (truth statement v) := by
  cases v with
  | bool b => exact depthFree_pure b
  | unit | int | float | str | function => exact depthFree_throw _

/-- A loop looks at the calls in progress only if a round of it does. -/
theorem depthFree_repeatWhile {test : Eval Bool} {body : Eval Flow} (htest : DepthFree test)
    (hbody : DepthFree body) (rounds : Nat) : DepthFree (repeatWhile test body rounds) :=
  inStep_repeatWhile rfl (fun v => ⟨v, rfl⟩) (fun v => ⟨v, rfl⟩) htest hbody rounds

/-- Scopes are opened and closed alike however many calls are in progress. -/
theorem depthFree_inScope {body : Eval α} (h : DepthFree body) : DepthFree (inScope body) := by
  unfold DepthFree
  rw [inScope_eq_within]
  refine inStep_within (fun m m' hm => ?_) (fun m m' hm => ?_) h
  · exact ⟨congrArg Environment.push hm.environment_eq, hm.output_eq⟩
  · exact ⟨congrArg Environment.pop hm.environment_eq, hm.output_eq⟩

/-- A call has nothing to do with the calls in progress if its body has not. -/
theorem depthFree_inCall {body : Eval α} (h : DepthFree body) : DepthFree (inCall body) := by
  unfold DepthFree
  rw [inCall_eq_within]
  exact inStep_within (fun m m' hm => ⟨hm.environment_eq, hm.output_eq⟩)
    (fun m m' hm => ⟨hm.environment_eq, hm.output_eq⟩) h

/-- The value of a name has nothing to do with the calls in progress. -/
theorem depthFree_lookup (name : String) : DepthFree (lookup name) := by
  intro m m' hm
  unfold lookup
  rw [hm.environment_eq]
  cases m.environment.lookup name with
  | some v => exact .ok hm
  | none => exact .error hm

/-- A declaration has nothing to do with the calls in progress. -/
theorem depthFree_declare (name : String) (v : Value) (mutable : Bool) :
    DepthFree (declare name v mutable) := by
  intro m m' hm
  unfold declare
  rw [hm.environment_eq]
  cases m.environment.declare? name v mutable with
  | some env => exact .ok ⟨rfl, hm.output_eq⟩
  | none => exact .error hm

/-- An assignment has nothing to do with the calls in progress. -/
theorem depthFree_assign (name : String) (v : Value) : DepthFree (Eval.assign name v) := by
  intro m m' hm
  unfold Eval.assign
  rw [hm.environment_eq]
  cases m.environment.assign name v with
  | ok env => exact .ok ⟨rfl, hm.output_eq⟩
  | error e => cases e <;> exact .error hm

/-- A line that is written has nothing to do with the calls in progress. -/
theorem depthFree_writeLine (origin : Origin) (line : String) :
    DepthFree (writeLine origin line) := by
  intro m m' hm
  unfold writeLine
  rw [hm.output_eq]
  generalize m.output.write origin (line ++ "\n") = w
  obtain ⟨done, output⟩ := w
  cases done with
  | true => exact .ok ⟨hm.environment_eq, rfl⟩
  | false => exact .error ⟨hm.environment_eq, rfl⟩

/-- Parameters are bound alike however many calls are in progress. -/
theorem depthFree_bindAll (ps : List Parameter) (vs : List Value) :
    DepthFree (bindAll ps vs) := by
  induction ps generalizing vs with
  | nil => exact depthFree_pure ()
  | cons p ps ih =>
    cases vs with
    | nil => exact depthFree_pure ()
    | cons v vs => exact depthFree_bind (depthFree_declare p.name v p.mutable) fun _ => ih vs

/-- Machines that match are the same once the calls in progress are counted alike. -/
theorem eq_of_matches {m m' : Machine} (h : m.Matches m') {depth : Nat}
    (hdepth : m'.depth = depth) : { m with depth } = m' := by
  obtain ⟨env, out, _⟩ := m
  obtain ⟨env', out', depth'⟩ := m'
  obtain rfl : env' = env := h.environment_eq
  obtain rfl : out' = out := h.output_eq
  obtain rfl : depth' = depth := hdepth
  rfl

/-- In a call of its own, what keeps the number of calls in progress and does not look at it is
evaluated as it is directly. -/
theorem inCall_eq_self {fresh : List String} {action : Eval α} (h : DepthFree action)
    (hkeeps : Keeps (Machine.Frame fresh) action) (m : Machine) :
    inCall action m = action m := by
  have halike := h { m with depth := m.depth + 1 } m ⟨rfl, rfl⟩
  unfold inCall
  generalize hr : action { m with depth := m.depth + 1 } = r, hr' : action m = r' at halike
  -- Either way, as many calls are in progress in the end as in the beginning.
  cases halike with
  | @ok a m₁ m₁' hmatches =>
    have hdepth : m₁.depth - 1 = m.depth := congrArg (· - 1) (hkeeps.ok hr).depth_eq
    exact congrArg (EStateM.Result.ok a)
      (eq_of_matches hmatches ((hkeeps.ok hr').depth_eq.trans hdepth.symm))
  | @error e m₁ m₁' hmatches =>
    have hdepth : m₁.depth - 1 = m.depth := congrArg (· - 1) (hkeeps.error hr).depth_eq
    exact congrArg (EStateM.Result.error e)
      (eq_of_matches hmatches ((hkeeps.error hr').depth_eq.trans hdepth.symm))

end Eval

/-! ## Trees -/

open Eval

section Tree

variable {call : Call} {rounds : Nat}

mutual

/-- An expression is evaluated alike if functions are called alike. -/
theorem Expr.eval_depthFree (hcall : ∀ traced f vs, DepthFree (call traced f vs)) :
    ∀ e : Expr, DepthFree (e.eval call rounds)
  | .assign target value => by
    rw [Expr.eval]
    refine depthFree_bind (value.eval_depthFree hcall) fun v => ?_
    exact depthFree_bind (depthFree_assign target v) fun _ => depthFree_pure v
  | .binary op left right => by
    rw [Expr.eval]
    refine depthFree_bind (left.eval_depthFree hcall) fun l => ?_
    exact depthFree_bind (right.eval_depthFree hcall) fun r => depthFree_ofExcept _
  | .cast operand target => by
    rw [Expr.eval]
    exact depthFree_bind (operand.eval_depthFree hcall) fun v => depthFree_ofExcept _
  | .unary op operand => by
    rw [Expr.eval]
    exact depthFree_bind (operand.eval_depthFree hcall) fun v => depthFree_ofExcept _
  | .call traced callee arguments => by
    rw [Expr.eval]
    refine depthFree_bind (callee.eval_depthFree hcall) fun v => ?_
    -- The arguments are only evaluated if there is a function to call.
    cases v with
    | function f =>
      exact depthFree_bind (Expr.evalAll_depthFree hcall arguments) fun vs => hcall traced f vs
    | unit | int | float | str | bool => exact depthFree_throw _
  -- A lambda is only built, and its body waits for a call.
  | .lambda parameters body => by
    rw [Expr.eval]
    exact depthFree_pure _
  | .name name => by
    rw [Expr.eval]
    exact depthFree_lookup name
  | .paren inner => by
    rw [Expr.eval]
    exact inner.eval_depthFree hcall
  | .literal value => by
    rw [Expr.eval]
    exact depthFree_pure _

/-- Arguments look at the calls in progress only if calls do. -/
theorem Expr.evalAll_depthFree (hcall : ∀ traced f vs, DepthFree (call traced f vs)) :
    ∀ es : List Expr, DepthFree (Expr.evalAll call rounds es)
  | [] => by
    rw [Expr.evalAll]
    exact depthFree_pure _
  | e :: es => by
    rw [Expr.evalAll]
    refine depthFree_bind (e.eval_depthFree hcall) fun v => ?_
    exact depthFree_bind (Expr.evalAll_depthFree hcall es) fun vs => depthFree_pure _

/-- A statement looks at the calls in progress only if calls do. -/
theorem Stmt.exec_depthFree (hcall : ∀ traced f vs, DepthFree (call traced f vs)) :
    ∀ s : Stmt, DepthFree (s.exec call rounds)
  | .function name parameters body => by
    rw [Stmt.exec]
    exact depthFree_bind (depthFree_declare name _ false) fun _ => depthFree_pure _
  | .declare name mutable value => by
    rw [Stmt.exec]
    refine depthFree_bind (value.eval_depthFree hcall) fun v => ?_
    exact depthFree_bind (depthFree_declare name v mutable) fun _ => depthFree_pure _
  | .loop condition body => by
    rw [Stmt.exec]
    have htest := depthFree_bind (condition.eval_depthFree hcall) fun v =>
      depthFree_truth .whileKey v
    have hbody := depthFree_inScope (Stmt.execAll_depthFree hcall .unit body)
    exact depthFree_repeatWhile htest hbody rounds
  | .conditional c => by
    rw [Stmt.exec]
    exact c.exec_depthFree hcall
  | .leave none => by
    rw [Stmt.exec]
    exact depthFree_pure _
  | .leave (some value) => by
    rw [Stmt.exec]
    exact depthFree_bind (value.eval_depthFree hcall) fun v => depthFree_pure _
  | .expression e => by
    rw [Stmt.exec]
    exact depthFree_bind (e.eval_depthFree hcall) fun v => depthFree_pure _
  | .empty => by
    rw [Stmt.exec]
    exact depthFree_pure _

/-- Statements look at the calls in progress only if calls do. -/
theorem Stmt.execAll_depthFree (hcall : ∀ traced f vs, DepthFree (call traced f vs)) :
    ∀ (last : Value) (ss : List Stmt), DepthFree (Stmt.execAll call rounds last ss)
  | last, [] => by
    rw [Stmt.execAll]
    exact depthFree_pure _
  | last, s :: ss => by
    rw [Stmt.execAll]
    refine depthFree_bind (s.exec_depthFree hcall) fun flow => ?_
    cases flow with
    | normal v => exact Stmt.execAll_depthFree hcall v ss
    | leave v => exact depthFree_pure _

/-- A conditional looks at the calls in progress only if calls do. -/
theorem Conditional.exec_depthFree (hcall : ∀ traced f vs, DepthFree (call traced f vs)) :
    ∀ c : Conditional, DepthFree (c.exec call rounds)
  | .mk condition body otherwise => by
    rw [Conditional.exec]
    refine depthFree_bind (condition.eval_depthFree hcall) fun v => ?_
    refine depthFree_bind (depthFree_truth _ v) fun holds => ?_
    cases holds with
    | true =>
      have hbody := depthFree_inScope (Stmt.execAll_depthFree hcall .unit body)
      exact depthFree_bind hbody fun _ => depthFree_pure _
    | false => exact depthFree_bind (otherwise.exec_depthFree hcall) fun _ => depthFree_pure _

/-- What is executed otherwise looks at the calls in progress only if calls do. -/
theorem Alternative.exec_depthFree (hcall : ∀ traced f vs, DepthFree (call traced f vs)) :
    ∀ a : Alternative, DepthFree (a.exec call rounds)
  | .nothing => by
    rw [Alternative.exec]
    exact depthFree_pure _
  | .block body => by
    rw [Alternative.exec]
    exact depthFree_inScope (Stmt.execAll_depthFree hcall .unit body)
  | .chain c => by
    rw [Alternative.exec]
    exact c.exec_depthFree hcall

end

/-! ## Calls -/

/-- The body of a function looks at the calls in progress only if calls do. -/
theorem Function.enter_depthFree (hcall : ∀ traced f vs, DepthFree (call traced f vs))
    (f : Function) (vs : List Value) : DepthFree (f.enter call rounds vs) := by
  cases f with
  | print =>
    rw [Function.enter]
    refine depthFree_bind ?_ fun _ => depthFree_pure _
    induction vs with
    | nil => exact depthFree_pure ()
    | cons v vs ih => exact depthFree_bind (depthFree_writeLine .print v.text) fun _ => ih
  | user parameters body =>
    rw [Function.enter]
    -- Parameters and body are shifted together with the scope that they share.
    refine depthFree_inScope (depthFree_bind (depthFree_bindAll parameters vs) fun _ => ?_)
    exact depthFree_bind (Stmt.execAll_depthFree hcall .unit body) fun _ => depthFree_pure _
  | composed first second =>
    rw [Function.enter]
    -- Both halves are calls of their own, which the hypothesis covers.
    exact depthFree_bind (hcall false first vs) fun v => hcall false second [v]

/-- The body of a function, between the lines that report a traced call, looks at the calls in
progress only if calls do. -/
theorem Function.enterTraced_depthFree (hcall : ∀ traced f vs, DepthFree (call traced f vs))
    (traced : Bool) (f : Function) (vs : List Value) :
    DepthFree (f.enterTraced call rounds traced vs) := by
  have henter : DepthFree (f.enter call rounds vs) := f.enter_depthFree hcall vs
  unfold Function.enterTraced
  cases traced with
  | false => exact henter
  | true =>
    refine depthFree_bind (depthFree_writeLine _ _) fun _ => ?_
    refine depthFree_bind henter fun result => ?_
    exact depthFree_bind (depthFree_writeLine _ _) fun _ => depthFree_pure _

end Tree

/-- Only how many calls may still be nested matters to a call, and not how many are in progress. -/
theorem Function.call_depthFree (bounds : Bounds) (depth : Nat) (traced : Bool) (f : Function)
    (vs : List Value) : DepthFree (Function.call bounds depth traced f vs) := by
  induction depth generalizing traced f vs with
  | zero =>
    unfold Function.call
    split
    · exact depthFree_throw _
    · exact depthFree_throw _
  | succ depth ih =>
    unfold Function.call
    split
    · exact depthFree_inCall (f.enterTraced_depthFree ih traced vs)
    · exact depthFree_throw _

end Brisk
