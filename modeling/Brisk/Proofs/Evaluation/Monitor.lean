import Brisk.Proofs.Evaluation.Origin

/-!
# Evaluations under a monitor

`Task.Visits` says which calls an evaluation makes, and this module says that it makes no others,
whether it comes to a value, fails or runs out of rounds.

A `Monitor` is put around every call that is entered, and may do there what it likes: evaluate the
body of the function, evaluate it in another machine, or raise an alarm. It is told how many calls
are in progress, and these are counted by their nesting (`Function.callUnder`), not by the machine.
If the monitor leaves alone the calls that a task enters by `Task.Visits`, then the task comes to
the same under the monitor as without one (`Task.performUnder_eq`).

This is proved in two steps. What a task comes to depends on the calls that are visited before
another call is entered, and on no others (`Task.performBy_eq`): this goes from a task to its parts,
and so needs one short case for each way in which a tree is evaluated. Calls under a monitor are
then followed by induction on how many of them may still be nested (`Function.callUnder_eq`).

Hence a monitor that interferes only where more calls are in progress than may be never interferes
(`Bounds.runUnder_eq`).
-/

namespace Brisk

open Eval

/-! ## Tasks with their calls made differently -/

/-- What a task comes to. -/
def Task.Result : Task → Type
  | expression _ | call _ _ _ | body _ _ => Value
  | expressions _ => List Value
  | statement _ | statements _ _ | block _ | conditional _ | alternative _ | loop _ _ _ => Flow

/-- Performs a task, in which `call` calls functions. -/
def Task.performBy (call : Call) (rounds : Nat) : (t : Task) → Eval t.Result
  | expression e => e.eval call rounds
  | expressions es => Expr.evalAll call rounds es
  | statement s => s.exec call rounds
  | statements last ss => Stmt.execAll call rounds last ss
  | block ss => inScope (Stmt.execAll call rounds .unit ss)
  | conditional c => c.exec call rounds
  | alternative a => a.exec call rounds
  | loop left condition ss =>
    repeatWhile (do truth .whileKey (← condition.eval call rounds))
      (inScope (Stmt.execAll call rounds .unit ss)) left
  | .call traced f vs => call traced f vs
  | body f vs => f.enter call rounds vs

namespace Eval

variable {α β : Type} {m : Machine}

/-- Sequences do the same in a machine if their first evaluations do, and the next ones in whatever
machine these leave. -/
theorem bind_congr_at {action action' : Eval α} {next next' : α → Eval β}
    (h : action m = action' m)
    (hnext : ∀ a m', action' m = .ok a m' → next a m' = next' a m') :
    (action >>= next) m = (action' >>= next') m := by
  cases hr : action' m with
  | ok a m' => rw [bind_of_ok (h.trans hr), bind_of_ok hr, hnext a m' hr]
  | error e m' => rw [bind_of_error (h.trans hr), bind_of_error hr]

/-- What is made of the results of two evaluations is the same in a machine if the results are. -/
theorem map_congr_at {action action' : Eval α} (f : α → β) (h : action m = action' m) :
    (action >>= fun a => pure (f a)) m = (action' >>= fun a => pure (f a)) m :=
  bind_congr_at h fun _ _ _ => rfl

/-- In a changed machine, evaluations do the same if they do in the one that it is changed to. -/
theorem within_congr_at {enter leave : Machine → Machine} {body body' : Eval α}
    (h : body (enter m) = body' (enter m)) :
    within enter leave body m = within enter leave body' m := by
  unfold within
  rw [h]

end Eval

namespace Task

variable {bounds : Bounds} {call' : Call} {m : Machine}

/-- A task comes to the same in a machine if `call'` calls functions. -/
abbrev SameBy (bounds : Bounds) (call' : Call) (t : Task) (m : Machine) : Prop :=
  t.performBy call' bounds.rounds m = t.performBy bounds.call bounds.rounds m

/-- An expression comes to the same if its operands do, and the call that it may make. -/
theorem sameBy_expression {e : Expr}
    (h : ∀ t' m', Part bounds (.expression e) m t' m' → t'.SameBy bounds call' m') :
    (expression e).SameBy bounds call' m := by
  show e.eval call' bounds.rounds m = bounds.expression e m
  unfold Bounds.expression
  -- The parts are visited in the order in which the evaluation comes to them.
  cases e with
  | assign target value =>
    rw [Expr.eval, Expr.eval]
    exact bind_congr_at (h _ _ .assigned) fun _ _ _ => rfl
  | binary op left right =>
    rw [Expr.eval, Expr.eval]
    exact bind_congr_at (h _ _ .left) fun l m' hl =>
      bind_congr_at (h _ _ (.right hl)) fun _ _ _ => rfl
  | cast operand target =>
    rw [Expr.eval, Expr.eval]
    exact bind_congr_at (h _ _ .casted) fun _ _ _ => rfl
  | unary op operand =>
    rw [Expr.eval, Expr.eval]
    exact bind_congr_at (h _ _ .operand) fun _ _ _ => rfl
  | call traced callee arguments =>
    rw [Expr.eval, Expr.eval]
    refine bind_congr_at (h _ _ .callee) fun v m' hv => ?_
    cases v with
    | function f =>
      -- Only here a call is made, with the arguments that have been evaluated.
      exact bind_congr_at (h _ _ (.arguments hv)) fun vs m'' hvs => h _ _ (.call hv hvs)
    | unit | int | float | str | bool => rfl
  | paren inner =>
    rw [Expr.eval, Expr.eval]
    exact h _ _ .inner
  -- Expressions without parts make no call.
  | lambda parameters body => rw [Expr.eval, Expr.eval]
  | name name => rw [Expr.eval, Expr.eval]
  | literal value => rw [Expr.eval, Expr.eval]

/-- Expressions come to the same if each of them does. -/
theorem sameBy_expressions {es : List Expr}
    (h : ∀ t' m', Part bounds (.expressions es) m t' m' → t'.SameBy bounds call' m') :
    (expressions es).SameBy bounds call' m := by
  show Expr.evalAll call' bounds.rounds es m = Expr.evalAll bounds.call bounds.rounds es m
  cases es with
  | nil => rw [Expr.evalAll, Expr.evalAll]
  | cons e es =>
    rw [Expr.evalAll, Expr.evalAll]
    exact bind_congr_at (h _ _ .head) fun v m' hv => map_congr_at _ (h _ _ (.tail hv))

/-- A statement comes to the same if what it consists of does. -/
theorem sameBy_statement {s : Stmt}
    (h : ∀ t' m', Part bounds (.statement s) m t' m' → t'.SameBy bounds call' m') :
    (statement s).SameBy bounds call' m := by
  show s.exec call' bounds.rounds m = bounds.statement s m
  unfold Bounds.statement
  -- A statement adds nothing to the evaluations of its parts.
  cases s with
  | declare name mutable value =>
    rw [Stmt.exec, Stmt.exec]
    exact bind_congr_at (h _ _ .declared) fun _ _ _ => rfl
  | loop condition body =>
    rw [Stmt.exec, Stmt.exec]
    exact h _ _ .loop
  | conditional c =>
    rw [Stmt.exec, Stmt.exec]
    exact h _ _ .conditional
  | leave value =>
    cases value with
    | none => rw [Stmt.exec, Stmt.exec]
    | some value =>
      rw [Stmt.exec, Stmt.exec]
      exact map_congr_at _ (h _ _ .returned)
  | expression e =>
    rw [Stmt.exec, Stmt.exec]
    exact map_congr_at _ (h _ _ .expression)
  | function name parameters body => rw [Stmt.exec, Stmt.exec]
  | empty => rw [Stmt.exec, Stmt.exec]

/-- Statements come to the same if each of them does that is reached. -/
theorem sameBy_statements {last : Value} {ss : List Stmt}
    (h : ∀ t' m', Part bounds (.statements last ss) m t' m' → t'.SameBy bounds call' m') :
    (statements last ss).SameBy bounds call' m := by
  show Stmt.execAll call' bounds.rounds last ss m =
    Stmt.execAll bounds.call bounds.rounds last ss m
  cases ss with
  | nil => rw [Stmt.execAll, Stmt.execAll]
  | cons s ss =>
    rw [Stmt.execAll, Stmt.execAll]
    refine bind_congr_at (h _ _ .first) fun flow m' hflow => ?_
    cases flow with
    | normal v => exact h _ _ (.rest hflow)
    | leave v => rfl

/-- A block comes to the same if its statements do in the scope that is opened. -/
theorem sameBy_block {ss : List Stmt}
    (h : ∀ t' m', Part bounds (.block ss) m t' m' → t'.SameBy bounds call' m') :
    (block ss).SameBy bounds call' m := by
  show inScope (Stmt.execAll call' bounds.rounds .unit ss) m =
    inScope (Stmt.execAll bounds.call bounds.rounds .unit ss) m
  rw [inScope_eq_within, inScope_eq_within]
  exact within_congr_at (h _ _ .inBlock)

/-- A conditional comes to the same if its condition does, and the branch that is taken. -/
theorem sameBy_conditional {c : Conditional}
    (h : ∀ t' m', Part bounds (.conditional c) m t' m' → t'.SameBy bounds call' m') :
    (conditional c).SameBy bounds call' m := by
  show c.exec call' bounds.rounds m = c.exec bounds.call bounds.rounds m
  cases c with
  | mk condition body otherwise =>
    rw [Conditional.exec, Conditional.exec]
    refine bind_congr_at (h _ _ .condition) fun v m' hv => ?_
    refine bind_congr_at rfl fun b m'' hb => ?_
    obtain ⟨rfl, rfl⟩ := truth_eq_ok hb
    cases b with
    | true => exact map_congr_at _ (h _ _ (.holds hv))
    | false => exact map_congr_at _ (h _ _ (.fails hv))

/-- What a conditional has for the case that its condition does not hold comes to the same if its
block or conditional does. -/
theorem sameBy_alternative {a : Alternative}
    (h : ∀ t' m', Part bounds (.alternative a) m t' m' → t'.SameBy bounds call' m') :
    (alternative a).SameBy bounds call' m := by
  show a.exec call' bounds.rounds m = a.exec bounds.call bounds.rounds m
  cases a with
  | nothing => rw [Alternative.exec, Alternative.exec]
  | block body =>
    rw [Alternative.exec, Alternative.exec]
    exact h _ _ .otherwise
  | chain c =>
    rw [Alternative.exec, Alternative.exec]
    exact h _ _ .chain

/-- A loop comes to the same if its condition does, the round that follows and the rounds behind
it. -/
theorem sameBy_loop {left : Nat} {condition : Expr} {body : List Stmt}
    (h : ∀ t' m', Part bounds (.loop left condition body) m t' m' → t'.SameBy bounds call' m') :
    (loop left condition body).SameBy bounds call' m := by
  cases left with
  | zero => rfl
  | succ left =>
    refine bind_congr_at (bind_congr_at (h _ _ .test) fun _ _ _ => rfl) fun b m' hb => ?_
    -- The test has come to a truth value, which is that of the condition.
    obtain ⟨v, m₁, hv, htruth⟩ := bind_eq_ok hb
    obtain ⟨rfl, rfl⟩ := truth_eq_ok htruth
    cases b with
    | false => rfl
    | true =>
      refine bind_congr_at (h _ _ (.round hv)) fun flow m'' hflow => ?_
      cases flow with
      | normal v => exact h _ _ (.again hv hflow)
      | leave v => rfl

/-- The body of a function comes to the same if its statements do, or the calls of both halves. -/
theorem sameBy_body {f : Function} {vs : List Value}
    (h : ∀ t' m', Part bounds (.body f vs) m t' m' → t'.SameBy bounds call' m') :
    (body f vs).SameBy bounds call' m := by
  show f.enter call' bounds.rounds vs m = f.enter bounds.call bounds.rounds vs m
  cases f with
  | print => rw [Function.enter, Function.enter]
  | user parameters ss =>
    rw [Function.enter, Function.enter, inScope_eq_within, inScope_eq_within]
    exact within_congr_at (bind_congr_at rfl fun _ m' hbind => map_congr_at _ (h _ _ (.user hbind)))
  | composed first second =>
    rw [Function.enter, Function.enter]
    exact bind_congr_at (h _ _ .firstHalf) fun v m' hv => h _ _ (.secondHalf hv)

/-- A task that is no call comes to the same if its parts do. -/
theorem sameBy_of_parts {t : Task} (hcall : ∀ traced f vs, t ≠ .call traced f vs)
    (h : ∀ t' m', Part bounds t m t' m' → t'.SameBy bounds call' m') : t.SameBy bounds call' m := by
  -- Calls are left out here, as they are what the two evaluations differ in.
  cases t with
  | expression e => exact sameBy_expression h
  | expressions es => exact sameBy_expressions h
  | statement s => exact sameBy_statement h
  | statements last ss => exact sameBy_statements h
  | block ss => exact sameBy_block h
  | conditional c => exact sameBy_conditional h
  | alternative a => exact sameBy_alternative h
  | loop left condition body => exact sameBy_loop h
  | call traced f vs => exact absurd rfl (hcall traced f vs)
  | body f vs => exact sameBy_body h

end Task

/-- Calls are entered by calls only. -/
theorem Part.calls_eq_zero {bounds : Bounds} {t t' : Task} {m m' : Machine}
    (h : Part bounds t m t' m') (hcall : ∀ traced f vs, t ≠ .call traced f vs) : t'.calls = 0 := by
  obtain ⟨-, hcalls⟩ | ⟨hcalls, -⟩ := h.decreases
  · cases h with
    | body => exact absurd rfl (hcall _ _ _)
    | _ => cases hcalls
  · exact hcalls

/-- What a task comes to depends on the calls that are visited before another call is entered, and
on no others. -/
theorem Task.performBy_eq {bounds : Bounds} {call' : Call} {t : Task} {m : Machine}
    (h : ∀ traced f vs m', t.Visits bounds m 0 (.call traced f vs) m' →
      call' traced f vs m' = bounds.call traced f vs m') :
    t.performBy call' bounds.rounds m = t.performBy bounds.call bounds.rounds m := by
  suffices hsame : ∀ p : Task × Machine, (∀ traced f vs m',
      p.1.Visits bounds p.2 0 (.call traced f vs) m' →
        call' traced f vs m' = bounds.call traced f vs m') → p.1.SameBy bounds call' p.2 from
    hsame (t, m) h
  intro p
  induction p using (Part.wellFounded bounds).induction with
  | _ p ih =>
    obtain ⟨t, m⟩ := p
    intro h
    by_cases hcall : ∃ traced f vs, t = .call traced f vs
    · obtain ⟨traced, f, vs, rfl⟩ := hcall
      exact h traced f vs m .start
    · have hother : ∀ traced f vs, t ≠ .call traced f vs :=
        fun traced f vs ht => hcall ⟨traced, f, vs, ht⟩
      refine sameBy_of_parts hother fun t' m' hpart => ih (t', m') hpart ?_
      -- Calls that a part visits are visited by the task, with none entered on the way.
      intro traced f vs m'' hvisits
      have hvisited := Visits.of_part hpart hvisits
      rw [hpart.calls_eq_zero hother] at hvisited
      exact h traced f vs m'' hvisited

/-! ## Monitors -/

/-- What is put around calls that are entered: it is given the number of calls that are in progress
then, the function and the arguments, and what is to be evaluated while the call is in progress. -/
abbrev Monitor := Nat → Function → List Value → Eval Value → Eval Value

/-- Calls a function under a monitor when as many calls as given may still be nested. The second
number counts the calls that are in progress already. -/
def Function.callUnder (monitor : Monitor) (bounds : Bounds) : Nat → Nat → Call
  | 0, _, _, f, arguments =>
    if arguments.length = f.arity then fail (.callDepthExceeded bounds.callDepth)
    else fail (.arityMismatch f.arity arguments.length)
  | depth + 1, n, traced, f, arguments =>
    if arguments.length = f.arity then
      inCall (monitor (n + 1) f arguments
        (f.enterTraced (callUnder monitor bounds depth (n + 1)) bounds.rounds traced arguments))
    else fail (.arityMismatch f.arity arguments.length)

namespace Bounds

/-- Calls under a monitor, as deep as the machine leaves room for, with as many of them as given in
progress. -/
def callUnder (monitor : Monitor) (bounds : Bounds) (n : Nat) : Call := fun traced f arguments m =>
  Function.callUnder monitor bounds (bounds.callDepth - m.depth) n traced f arguments m

/-- `Bounds.run` under a monitor, with no calls in progress. -/
def runUnder (monitor : Monitor) (bounds : Bounds) (p : Program) : Eval Value := do
  let flow ← inScope (Stmt.execAll (bounds.callUnder monitor 0) bounds.rounds .unit p.statements)
  return flow.value

/-- `Bounds.runInSession` under a monitor, with no calls in progress. -/
def runInSessionUnder (monitor : Monitor) (bounds : Bounds) (p : Program) : Eval Value := do
  let flow ← Stmt.execAll (bounds.callUnder monitor 0) bounds.rounds .unit p.statements
  return flow.value

end Bounds

namespace Task

variable {bounds : Bounds} {t t' t'' : Task} {m m' m'' : Machine} {n n' : Nat} {f : Function}
  {vs : List Value}

/-- `t.Enters bounds m n f vs m'` means that performing `t` in `m` involves entering a call of `f`,
with which `n` calls are in progress that were entered on the way, and which starts in `m'`. -/
inductive Enters (bounds : Bounds) (t : Task) (m : Machine) :
    Nat → Function → List Value → Machine → Prop where
  | call {n : Nat} {traced : Bool} {f : Function} {vs : List Value} {m' : Machine}
      (h : t.Visits bounds m n (.call traced f vs) m') (harity : vs.length = f.arity)
      (hdepth : m'.depth < bounds.callDepth) :
      Enters bounds t m (n + 1) f vs { m' with depth := m'.depth + 1 }

/-- What is visited by a task that is visited is visited. -/
theorem Visits.trans (h : t.Visits bounds m n t' m') (h' : t'.Visits bounds m' n' t'' m'') :
    t.Visits bounds m (n + n') t'' m'' := by
  induction h' with
  | start => exact h
  | part _ hpart ih => exact Nat.add_assoc _ _ _ ▸ .part ih hpart

/-- Calls that are entered by a task that is visited are entered. -/
theorem Enters.of_visits (h : t.Visits bounds m n t' m') (h' : t'.Enters bounds m' n' f vs m'') :
    t.Enters bounds m (n + n') f vs m'' := by
  cases h' with
  | call hvisits harity hdepth => exact .call (h.trans hvisits) harity hdepth

/-- A call starts with the calls in progress that the machine counts, itself included, and there are
never more than may be. -/
theorem Enters.depth_le (h : t.Enters bounds m n f vs m') :
    m'.depth = m.depth + n ∧ m'.depth ≤ bounds.callDepth := by
  cases h with
  | call hvisits harity hdepth =>
    refine ⟨?_, hdepth⟩
    show _ + 1 = _
    rw [hvisits.depth_eq.1, Nat.add_assoc]

end Task

section Monitored

variable {bounds : Bounds} {monitor : Monitor}

/-- A call comes to the same under a monitor that leaves alone the calls that are entered. -/
theorem Function.callUnder_eq {depth n : Nat} {traced : Bool} {f : Function} {vs : List Value}
    {m : Machine} (hdepth : bounds.callDepth - m.depth = depth)
    (h : ∀ k f' vs' m', (Task.call traced f vs).Enters bounds m k f' vs' m' →
      ∀ body, monitor (n + k) f' vs' body m' = body m') :
    Function.callUnder monitor bounds depth n traced f vs m = bounds.call traced f vs m := by
  induction depth generalizing n traced f vs m with
  | zero =>
    -- There is no room for a call, so none is entered, with a monitor or without.
    show _ = Function.call bounds (bounds.callDepth - m.depth) traced f vs m
    rw [hdepth, Function.call, Function.callUnder]
  | succ depth ih =>
    rw [Function.callUnder, bounds.call_unfold]
    by_cases harity : vs.length = f.arity
    · have hroom : m.depth < bounds.callDepth := by omega
      rw [if_pos harity, if_pos harity, if_pos hroom]
      -- The monitor leaves this call alone.
      rw [inCall_eq_within, inCall_eq_within]
      refine within_congr_at ?_
      rw [h 1 f vs _ (.call .start harity hroom), f.enterTraced_eq, f.enterTraced_eq]
      -- What is left is the body, in which calls are followed by the induction hypothesis.
      refine bind_congr_at rfl fun _ m₁ hreport => bind_congr_at ?_ fun _ _ _ => rfl
      have hbody : (Task.call traced f vs).Visits bounds m 1 (.body f vs) m₁ :=
        .part .start (.body harity hroom hreport)
      refine Task.performBy_eq (t := .body f vs) fun traced' f' vs' m' hvisits => ih ?_ ?_
      · have hdepth₁ := (hbody.trans hvisits).depth_eq.1
        omega
      · intro k g ws m'' henters body
        rw [Nat.add_assoc]
        exact h (1 + k) g ws m'' (henters.of_visits (hbody.trans hvisits)) body
    · rw [if_neg harity, if_neg harity]
      rfl

/-- A task comes to the same under a monitor that leaves alone the calls that the task enters: it
enters no others. -/
theorem Task.performUnder_eq {t : Task} {n : Nat} {m : Machine}
    (h : ∀ k f vs m', t.Enters bounds m k f vs m' →
      ∀ body, monitor (n + k) f vs body m' = body m') :
    t.performBy (bounds.callUnder monitor n) bounds.rounds m =
      t.performBy bounds.call bounds.rounds m := by
  refine Task.performBy_eq fun traced f vs m' hvisits => ?_
  refine Function.callUnder_eq rfl fun k f' vs' m'' henters => ?_
  have hentered := henters.of_visits hvisits
  rw [Nat.zero_add] at hentered
  exact h k f' vs' m'' hentered

/-- A monitor that may interfere where more than the given number of calls are in progress, by their
nesting or by what a machine counts, and nowhere else. -/
def Monitor.SilentWithin (monitor : Monitor) (callDepth : Nat) : Prop :=
  ∀ n f vs body m, n ≤ callDepth → m.depth = n → monitor n f vs body m = body m

/-- Where no calls are in progress, a task enters only calls that a silent monitor leaves alone. -/
theorem Monitor.SilentWithin.performUnder_eq (h : monitor.SilentWithin bounds.callDepth) (t : Task)
    {m : Machine} (hm : m.depth = 0) :
    t.performBy (bounds.callUnder monitor 0) bounds.rounds m =
      t.performBy bounds.call bounds.rounds m := by
  refine Task.performUnder_eq fun k f vs m' henters body => ?_
  obtain ⟨hdepth, hle⟩ := henters.depth_le
  rw [hm, Nat.zero_add] at hdepth
  rw [Nat.zero_add]
  exact h k f vs body m' (hdepth ▸ hle) hdepth

/-- A monitor that interferes only where more calls are in progress than may be does not interfere
with a program. -/
theorem Bounds.runUnder_eq (h : monitor.SilentWithin bounds.callDepth) (p : Program) {m : Machine}
    (hm : m.depth = 0) : bounds.runUnder monitor p m = bounds.run p m := by
  have hblock := h.performUnder_eq (.block p.statements) hm
  have hprogram : bounds.run p = (do
      let flow ← (Task.block p.statements).performBy bounds.call bounds.rounds
      return flow.value) := by
    unfold Bounds.run Bounds.program
    rw [bind_assoc]
    rfl
  rw [hprogram]
  exact map_congr_at Flow.value hblock

/-- A monitor that interferes only where more calls are in progress than may be does not interfere
with a program in a session. -/
theorem Bounds.runInSessionUnder_eq (h : monitor.SilentWithin bounds.callDepth) (p : Program)
    {m : Machine} (hm : m.depth = 0) :
    bounds.runInSessionUnder monitor p m = bounds.runInSession p m :=
  map_congr_at Flow.value (h.performUnder_eq (.statements .unit p.statements) hm)

end Monitored

end Brisk
