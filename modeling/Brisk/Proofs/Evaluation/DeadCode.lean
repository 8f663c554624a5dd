import Brisk.Proofs.Evaluation.InStep
import Brisk.Proofs.Evaluation.Returns
import Brisk.Proofs.Tree.Trim

/-!
# Code behind a return

Executing statements stops at the first one that leaves, so what stands behind it does not matter.
A tree and the trimmed tree are evaluated in step, from machines that differ in the bodies of
functions in the same way: the values that a program leaves behind hold the bodies with which they
were declared. So two programs that are the same when they are trimmed come to the same results, but
for what stands behind returns in the bodies of functions (`Bounds.dead_code`).
-/

namespace Brisk

open Eval
open Machine (Related)

/-! ## Trimmed values -/

/-- A value in which nothing stands behind a return. -/
abbrev Value.trim : Value → Value := Value.mapBodies Stmt.listTrim

/-- How a statement ended, with a value in which nothing stands behind a return. -/
abbrev Flow.trim : Flow → Flow := Flow.mapBodies Stmt.listTrim

/-- A function in which nothing stands behind a return. -/
abbrev Function.trim : Function → Function := Function.mapBodies Stmt.listTrim

/-- A machine in whose values nothing stands behind a return. -/
def Machine.trim (m : Machine) : Machine :=
  { m with environment := m.environment.mapBodies Stmt.listTrim }

/-- The second machine is the first one, trimmed. -/
abbrev Machine.Trimmed : Machine → Machine → Prop :=
  Related (fun env env' => env' = env.mapBodies Stmt.listTrim) (fun out out' => out' = out)

/-! ## Trees -/

/-- Calls of functions and of trimmed functions are in step. -/
def Eval.CallsTrimmed (call call' : Call) : Prop :=
  ∀ (traced : Bool) (f : Function) (vs : List Value),
    InStep Machine.Trimmed Value.trim (call traced f vs) (call' traced f.trim (vs.map Value.trim))

/-- Nothing is executed behind a statement that leaves. -/
theorem Stmt.execAll_leave (call : Call) (rounds : Nat) (last : Value) (value : Option Expr)
    (ss : List Stmt) : Stmt.execAll call rounds last (.leave value :: ss) =
      (Stmt.leave value).exec call rounds := by
  rw [Stmt.execAll]
  cases value with
  | none =>
    rw [Stmt.exec, pure_bind]
  | some e =>
    rw [Stmt.exec, bind_assoc]
    simp only [pure_bind]

section Tree

variable {call call' : Call} {rounds : Nat}

/-- The operations on environments do not see what stands behind returns. -/
theorem Environment.simulates_trim : Environment.Simulates Value.trim (fun _ => True)
    (fun _ env env' => env' = env.mapBodies Stmt.listTrim) :=
  Environment.simulates_mapBodies Stmt.listTrim

mutual

/-- Expressions are evaluated in step. -/
theorem Expr.eval_trim (hcall : CallsTrimmed call call') :
    ∀ e : Expr, InStep Machine.Trimmed Value.trim (e.eval call rounds) (e.trim.eval call' rounds)
  | .assign target value => by
    rw [Expr.trim, Expr.eval, Expr.eval]
    refine inStep_bind (value.eval_trim hcall) fun v => ?_
    exact inStep_bind (inStep_assign Environment.simulates_trim 0 target v) fun _ => inStep_pure _ v
  | .binary op left right => by
    rw [Expr.trim, Expr.eval, Expr.eval]
    refine inStep_bind (left.eval_trim hcall) fun l => ?_
    refine inStep_bind (right.eval_trim hcall) fun r => ?_
    -- Operators, casts and the lines that are printed never look into a body.
    rw [op.apply_mapBodies]
    exact inStep_ofExcept _ _
  | .cast operand target => by
    rw [Expr.trim, Expr.eval, Expr.eval]
    refine inStep_bind (operand.eval_trim hcall) fun v => ?_
    rw [v.cast_mapBodies]
    exact inStep_ofExcept _ _
  | .unary op operand => by
    rw [Expr.trim, Expr.eval, Expr.eval]
    refine inStep_bind (operand.eval_trim hcall) fun v => ?_
    rw [op.apply_mapBodies]
    exact inStep_ofExcept _ _
  | .call traced callee arguments => by
    rw [Expr.trim, Expr.eval, Expr.eval]
    refine inStep_bind (callee.eval_trim hcall) fun v => ?_
    -- The arguments are only evaluated if there is a function to call.
    cases v with
    | function f =>
      exact inStep_bind (Expr.evalAll_trim hcall arguments) fun vs => hcall traced f vs
    | unit | int | float | str | bool => exact inStep_throw _ _
  | .lambda parameters body => by
    rw [Expr.trim, Expr.eval, Expr.eval]
    -- The body of a lambda is trimmed like the blocks of the program.
    exact inStep_pure _ (Value.function (.user parameters body))
  | .name name => by
    rw [Expr.trim, Expr.eval, Expr.eval]
    exact inStep_lookup Environment.simulates_trim 0 name
  | .paren inner => by
    rw [Expr.trim, Expr.eval, Expr.eval]
    exact inner.eval_trim hcall
  | .literal value => by
    rw [Expr.trim, Expr.eval, Expr.eval]
    have h := inStep_pure (R := Machine.Trimmed) Value.trim (.ofLiteral value)
    have htrim : (Value.ofLiteral value).trim = .ofLiteral value :=
      Value.mapBodies_ofLiteral _ value
    rwa [htrim] at h

/-- Arguments are evaluated in step. -/
theorem Expr.evalAll_trim (hcall : CallsTrimmed call call') :
    ∀ es : List Expr, InStep Machine.Trimmed (List.map Value.trim) (Expr.evalAll call rounds es)
      (Expr.evalAll call' rounds (Expr.listTrim es))
  | [] => by
    rw [Expr.listTrim, Expr.evalAll, Expr.evalAll]
    exact inStep_pure _ []
  | e :: es => by
    rw [Expr.listTrim, Expr.evalAll, Expr.evalAll]
    refine inStep_bind (e.eval_trim hcall) fun v => ?_
    exact inStep_bind (Expr.evalAll_trim hcall es) fun vs => inStep_pure _ (v :: vs)

/-- Statements are executed in step. -/
theorem Stmt.exec_trim (hcall : CallsTrimmed call call') :
    ∀ s : Stmt, InStep Machine.Trimmed Flow.trim (s.exec call rounds) (s.trim.exec call' rounds)
  | .function name parameters body => by
    rw [Stmt.trim, Stmt.exec, Stmt.exec]
    refine inStep_bind (inStep_declare Environment.simulates_trim (n := 0) (fun _ => trivial)
      (.function (.user parameters body)) false) fun _ => ?_
    exact inStep_pure _ (Flow.normal .unit)
  | .declare name mutable value => by
    rw [Stmt.trim, Stmt.exec, Stmt.exec]
    refine inStep_bind (value.eval_trim hcall) fun v => ?_
    refine inStep_bind (inStep_declare Environment.simulates_trim (n := 0) (fun _ => trivial) v
      mutable) fun _ => ?_
    exact inStep_pure _ (Flow.normal .unit)
  | .loop condition body => by
    rw [Stmt.trim, Stmt.exec, Stmt.exec]
    refine inStep_repeatWhile rfl (fun _ => ⟨_, rfl⟩) (fun _ => ⟨_, rfl⟩) ?_
      (inStep_inScope Environment.simulates_trim (n := 0) (Stmt.execAll_trim hcall .unit body))
      rounds
    exact inStep_bind (condition.eval_trim hcall) fun v => inStep_truth _ _ v
  | .conditional c => by
    rw [Stmt.trim, Stmt.exec, Stmt.exec]
    exact c.exec_trim hcall
  | .leave none => by
    rw [Stmt.trim, Stmt.exec, Stmt.exec]
    exact inStep_pure _ (Flow.leave .unit)
  | .leave (some value) => by
    rw [Stmt.trim, Stmt.exec, Stmt.exec]
    exact inStep_bind (value.eval_trim hcall) fun v => inStep_pure _ (Flow.leave v)
  | .expression e => by
    rw [Stmt.trim, Stmt.exec, Stmt.exec]
    exact inStep_bind (e.eval_trim hcall) fun v => inStep_pure _ (Flow.normal v)
  | .empty => by
    rw [Stmt.trim, Stmt.exec, Stmt.exec]
    exact inStep_pure _ (Flow.normal .unit)

/-- Statements that follow one another are executed in step, though behind a return there are none
left on the second side. -/
theorem Stmt.execAll_trim (hcall : CallsTrimmed call call') (last : Value) :
    ∀ ss : List Stmt, InStep Machine.Trimmed Flow.trim (Stmt.execAll call rounds last ss)
      (Stmt.execAll call' rounds last.trim (Stmt.listTrim ss))
  | [] => by
    rw [Stmt.listTrim, Stmt.execAll, Stmt.execAll]
    exact inStep_pure _ (Flow.normal last)
  | s :: ss => by
    have hhead := s.exec_trim hcall
    rw [Stmt.listTrim]
    -- The statements are cut behind a `return`, and there the evaluation ends as well.
    split
    · next hleave =>
      obtain ⟨value, rfl⟩ := Stmt.eq_leave_of_isLeave hleave
      obtain ⟨value', hvalue⟩ : ∃ value', (Stmt.leave value).trim = .leave value' := by
        cases value with
        | none => exact ⟨none, by rw [Stmt.trim]⟩
        | some e => exact ⟨some e.trim, by rw [Stmt.trim]⟩
      rw [hvalue] at hhead ⊢
      rw [Stmt.execAll_leave, Stmt.execAll_leave]
      exact hhead
    · -- Any other statement is kept, and the rest is trimmed by the induction.
      rw [Stmt.execAll, Stmt.execAll]
      refine inStep_bind hhead fun flow => ?_
      cases flow with
      | normal v => exact Stmt.execAll_trim hcall v ss
      | leave v => exact inStep_pure _ (Flow.leave v)

/-- Conditionals are executed in step. -/
theorem Conditional.exec_trim (hcall : CallsTrimmed call call') :
    ∀ c : Conditional, InStep Machine.Trimmed Flow.trim (c.exec call rounds)
      (c.trim.exec call' rounds)
  | .mk condition body otherwise => by
    rw [Conditional.trim, Conditional.exec, Conditional.exec]
    refine inStep_bind (condition.eval_trim hcall) fun v => ?_
    refine inStep_bind (inStep_truth _ _ v) fun holds => ?_
    cases holds with
    | true =>
      exact inStep_return (inStep_inScope Environment.simulates_trim (n := 0)
        (Stmt.execAll_trim hcall .unit body)) fun flow => flow.settle_mapBodies _
    | false =>
      exact inStep_return (otherwise.exec_trim hcall) fun flow => flow.settle_mapBodies _

/-- What is executed otherwise is executed in step. -/
theorem Alternative.exec_trim (hcall : CallsTrimmed call call') :
    ∀ a : Alternative, InStep Machine.Trimmed Flow.trim (a.exec call rounds)
      (a.trim.exec call' rounds)
  | .nothing => by
    rw [Alternative.trim, Alternative.exec, Alternative.exec]
    exact inStep_pure _ (Flow.normal .unit)
  | .block body => by
    rw [Alternative.trim, Alternative.exec, Alternative.exec]
    exact inStep_inScope Environment.simulates_trim (n := 0) (Stmt.execAll_trim hcall .unit body)
  | .chain c => by
    rw [Alternative.trim, Alternative.exec, Alternative.exec]
    exact c.exec_trim hcall

end

end Tree

/-! ## Calls -/

/-- The line that reports a call shows nothing of what stands behind a return. -/
theorem Function.callLine_trim (f : Function) (vs : List Value) :
    f.trim.callLine (vs.map Value.trim) = f.callLine vs := by
  unfold callLine
  rw [f.parameters_mapBodies, List.zipWith_map_right]
  simp only [Value.text_mapBodies]

/-- The bodies of functions are evaluated in step. -/
theorem Function.enter_trim {call call' : Call} (hcall : CallsTrimmed call call') (rounds : Nat)
    (f : Function) (vs : List Value) :
    InStep Machine.Trimmed Value.trim (f.enter call rounds vs)
      (f.trim.enter call' rounds (vs.map Value.trim)) := by
  cases f with
  | print =>
    rw [Function.trim, Function.mapBodies, Function.enter, Function.enter]
    exact inStep_bind (inStep_print Output.tracks_eq (Value.text_mapBodies Stmt.listTrim) vs)
      fun _ => inStep_pure _ Value.unit
  | user parameters body =>
    rw [Function.trim, Function.mapBodies, Function.enter, Function.enter]
    refine inStep_inScope Environment.simulates_trim (n := 0)
      (inStep_bind (inStep_bindAll Environment.simulates_trim 0 parameters vs) fun _ => ?_)
    -- The value that is returned is trimmed by the same map as the flow.
    exact inStep_return (Stmt.execAll_trim hcall .unit body) fun flow => flow.returned_mapBodies _
  | composed first second =>
    rw [Function.trim, Function.mapBodies, Function.enter, Function.enter]
    exact inStep_bind (hcall false first vs) fun v => hcall false second [v]

/-- Traces around the bodies of functions show nothing of the bodies. -/
theorem Function.enterTraced_trim {call call' : Call} (hcall : CallsTrimmed call call')
    (rounds : Nat) (traced : Bool) (f : Function) (vs : List Value) :
    InStep Machine.Trimmed Value.trim (f.enterTraced call rounds traced vs)
      (f.trim.enterTraced call' rounds traced (vs.map Value.trim)) := by
  have henter := f.enter_trim hcall rounds vs
  unfold Function.enterTraced
  rw [f.callLine_trim]
  split
  · refine inStep_bind (inStep_writeLine Output.tracks_eq (.inl rfl) _) fun _ => ?_
    refine inStep_bind henter fun v => ?_
    -- A value is written as a text, and no text shows the body of a function.
    have hline : returnLine v.trim = returnLine v := by
      rw [returnLine, returnLine, v.text_mapBodies]
    rw [hline]
    exact inStep_bind (inStep_writeLine Output.tracks_eq (.inl rfl) _)
      fun _ => inStep_pure _ v
  · exact henter

/-- Calls are in step, however many of them may still be nested. -/
theorem Function.call_trim (bounds : Bounds) (depth : Nat) :
    CallsTrimmed (Function.call bounds depth) (Function.call bounds depth) := by
  -- The induction is on the calls that may still be nested.
  induction depth with
  | zero =>
    intro traced f vs
    unfold Function.call
    -- Trimming keeps the parameters, and therefore the number of arguments.
    rw [f.arity_mapBodies, List.length_map]
    split
    · exact inStep_throw _ _
    · exact inStep_throw _ _
  | succ depth ih =>
    intro traced f vs
    unfold Function.call
    rw [f.arity_mapBodies, List.length_map]
    split
    · exact inStep_inCall (f.enterTraced_trim ih bounds.rounds traced vs)
    · exact inStep_throw _ _

namespace Bounds

variable (bounds : Bounds)

/-- Calls that are as deep as those in progress leave room for are in step. -/
theorem call_trim : CallsTrimmed bounds.call bounds.call := by
  intro traced f vs m m' hm
  unfold Bounds.call
  rw [hm.depth_eq]
  exact Function.call_trim bounds (bounds.callDepth - m.depth) traced f vs m m' hm

/-- Statements are executed in step with the trimmed ones. -/
theorem statements_trim (ss : List Stmt) : InStep Machine.Trimmed Flow.trim (bounds.statements ss)
    (bounds.statements (Stmt.listTrim ss)) :=
  Stmt.execAll_trim bounds.call_trim .unit ss

/-- A block is executed in step with the trimmed one. -/
theorem block_trim (ss : List Stmt) : InStep Machine.Trimmed Flow.trim (bounds.block ss)
    (bounds.block (Stmt.listTrim ss)) :=
  inStep_inScope Environment.simulates_trim (n := 0) (bounds.statements_trim ss)

/-- A program is executed in step with the trimmed one. -/
theorem program_trim (p : Program) : InStep Machine.Trimmed Flow.trim (bounds.program p)
    (bounds.program p.trim) := by
  refine inStep_return (bounds.block_trim p.statements) fun flow => ?_
  rw [flow.value_mapBodies]
  rfl

/-- A program has the value of the trimmed one, trimmed. -/
theorem run_trim (p : Program) : InStep Machine.Trimmed Value.trim (bounds.run p)
    (bounds.run p.trim) :=
  inStep_return (bounds.program_trim p) fun flow => flow.value_mapBodies _

/-- A program in a session has the value of the trimmed one, trimmed. -/
theorem runInSession_trim (p : Program) : InStep Machine.Trimmed Value.trim
    (bounds.runInSession p) (bounds.runInSession p.trim) :=
  inStep_return (bounds.statements_trim p.statements) fun flow => flow.value_mapBodies _

end Bounds

/-! ## Results -/

/-- What an evaluation has come to, without what stands behind returns in the bodies of
functions. -/
def Eval.trimmed : EStateM.Result Stop Machine Value → EStateM.Result Stop Machine Value
  | .ok v m => .ok v.trim m.trim
  | .error e m => .error e m.trim

/-- The second evaluation comes to what the first one does, trimmed. -/
theorem Eval.trimmed_of_inStep {action action' : Eval Value}
    (h : InStep Machine.Trimmed Value.trim action action') (m : Machine) :
    action' m.trim = trimmed (action m) := by
  have heq : ∀ {m m' : Machine}, Machine.Trimmed m m' → m' = m.trim := by
    rintro m ⟨_, _, _⟩ ⟨rfl, rfl, hdepth⟩
    obtain rfl := hdepth
    rfl
  have halike := h m m.trim ⟨rfl, rfl, rfl⟩
  generalize action m = r, action' m.trim = r' at halike
  cases halike with
  | ok h => rw [heq h, trimmed]
  | error h => rw [heq h, trimmed]

/-- A call is ended by a return in the body of the function. -/
theorem Bounds.call_of_returns {bounds : Bounds} {traced : Bool} {f : Function} {vs : List Value}
    {m m₀ m₁ m₂ : Machine} {v : Value} (harity : vs.length = f.arity)
    (hdepth : m.depth < bounds.callDepth)
    (hcall : f.reportCall traced vs { m with depth := m.depth + 1 } = .ok () m₀)
    (h : (Task.body f vs).Returns bounds m₀ v m₁)
    (hreturn : Function.reportReturn traced v m₁ = .ok () m₂) :
    bounds.call traced f vs m = .ok v { m₂ with depth := m₂.depth - 1 } := by
  have hbody : f.enterTraced bounds.call bounds.rounds traced vs { m with depth := m.depth + 1 } =
      .ok v m₂ := by
    rw [Function.enterTraced_eq]
    exact (bind_of_ok hcall).trans ((bind_of_ok h).trans (bind_of_ok hreturn))
  rw [bounds.call_eq traced harity hdepth]
  unfold inCall
  rw [hbody]

/-- Code behind a return is dead.

- Two programs that differ only in what stands behind returns, at the top, in blocks, in branches of
  conditionals, in loops and in the bodies of functions, come to results that differ only in what
  stands behind returns in the bodies of functions: the same value or error, the same bindings, the
  same output and the same calls in progress. This holds of programs in a scope of their own and in
  the scope of a session, and from machines that differ in the same way already.
- A return that is executed within blocks, conditionals and loops of a program, not in a call, ends
  the program with its value, and one that is executed so within the body of a function ends the
  call. Nothing is executed behind it: what is left is the machine behind the return, with the
  scopes closed that were open. Only the result of a traced call is still reported. -/
theorem Bounds.dead_code (bounds : Bounds) {p p' : Program} (h : p.trim = p'.trim)
    {m m' : Machine} (hm : m.trim = m'.trim) :
    (trimmed (bounds.run p m) = trimmed (bounds.run p' m') ∧
      trimmed (bounds.runInSession p m) = trimmed (bounds.runInSession p' m')) ∧
    ∀ (value : Option Expr) (v : Value) (m₁ m₂ : Machine),
      bounds.statement (.leave value) m₁ = .ok (.leave v) m₂ →
      ((Task.block p.statements).Visits bounds m 0 (.statement (.leave value)) m₁ →
        ∃ n, bounds.run p m = .ok v (m₂.close n)) ∧
      ((Task.statements .unit p.statements).Visits bounds m 0 (.statement (.leave value)) m₁ →
        ∃ n, bounds.runInSession p m = .ok v (m₂.close n)) ∧
      ∀ traced f vs m₀, vs.length = f.arity → m.depth < bounds.callDepth →
        f.reportCall traced vs { m with depth := m.depth + 1 } = .ok () m₀ →
        (Task.body f vs).Visits bounds m₀ 0 (.statement (.leave value)) m₁ →
        ∃ n, ∀ m₃, Function.reportReturn traced v (m₂.close n) = .ok () m₃ →
          bounds.call traced f vs m = .ok v { m₃ with depth := m₃.depth - 1 } := by
  refine ⟨⟨?_, ?_⟩, fun value v m₁ m₂ hvalue => ⟨fun hvisits => ?_, fun hvisits => ?_,
    fun traced f vs m₀ harity hdepth hcall hvisits => ?_⟩⟩
  · -- Both programs are in step with the trimmed one, which is the same for them.
    rw [← trimmed_of_inStep (bounds.run_trim p), ← trimmed_of_inStep (bounds.run_trim p'), h, hm]
  · rw [← trimmed_of_inStep (bounds.runInSession_trim p),
      ← trimmed_of_inStep (bounds.runInSession_trim p'), h, hm]
  · obtain ⟨n, hblock⟩ := hvisits.returns rfl hvalue
    -- The program hands on the flow that its block ends with.
    have hprogram : bounds.program p m = .ok (.normal v) (m₂.close n) := bind_of_ok hblock
    exact ⟨n, bind_of_ok hprogram⟩
  · obtain ⟨n, hstatements⟩ := hvisits.returns rfl hvalue
    exact ⟨n, bind_of_ok hstatements⟩
  · obtain ⟨n, hbody⟩ := hvisits.returns rfl hvalue
    exact ⟨n, fun m₃ hreturn => call_of_returns harity hdepth hcall hbody hreturn⟩

/-- The program `fn f() { return 1; <back> } f();`. -/
def Program.callReturning (back : List Stmt) : Program :=
  ⟨[.function "f" [] (.leave (some (.literal (.int 1))) :: back),
    .expression (.call false (.name "f") [])]⟩

/-- A function that would print `1` behind its return is called like one that does not. The return
ends the program `return 1; print(1);`, and a traced call of a function with that body. -/
theorem Bounds.dead_code_print :
    let bounds : Bounds := .ofCallDepth 1
    let m : Machine := ⟨.initial, .unlimited, 0⟩
    let one : Expr := .literal (.int 1)
    let print : Stmt := .expression (.call false (.name "print") [one])
    trimmed (bounds.run (.callReturning [print]) m) = trimmed (bounds.run (.callReturning []) m) ∧
      (∃ n, bounds.runInSession ⟨[.leave (some one), print]⟩ m = .ok (.int 1) (m.close n)) ∧
      ∃ m', bounds.call true (.user [] [.leave (some one), print]) [] m = .ok (.int 1) m' := by
  intro bounds m one print
  have htrim : (Program.callReturning [print]).trim = (Program.callReturning []).trim := by
    simp only [Program.callReturning, Program.trim, Stmt.listTrim, Stmt.trim, Stmt.isLeave,
      if_true]
  have hleave : ∀ m, bounds.statement (.leave (some one)) m = .ok (.leave (.int 1)) m := by
    intro m
    show Stmt.exec _ _ _ _ = _
    rw [Stmt.exec, Expr.eval]
    rfl
  obtain ⟨⟨hrun, -⟩, -⟩ := dead_code bounds htrim (m := m) rfl
  obtain ⟨-, hends⟩ := dead_code bounds (p := ⟨[.leave (some one), print]⟩) rfl (m := m) rfl
  obtain ⟨-, hsession, -⟩ := hends _ _ _ _ (hleave m)
  refine ⟨hrun, hsession (.part .start .first), ?_⟩
  obtain ⟨-, -, hcall⟩ := hends _ _ _ _ (hleave _)
  obtain ⟨n, hn⟩ := hcall true (.user [] [.leave (some one), print]) [] _ rfl (by decide) rfl
    (.part (.part .start (.user rfl)) .first)
  exact ⟨_, hn _ rfl⟩

end Brisk
