import Brisk.Proofs.Evaluation.Frame
import Brisk.Proofs.Evaluation.Retrace

/-!
# Evaluations in step

Two evaluations are in step with respect to a relation of machines if related machines give alike
results: both a value, or both the same error, and related machines again. Running out of rounds is
an error in this sense, so of two evaluations in step both come to an end or neither does.

`Environment.Simulates` says what a relation of environments must have in common with the operations
of the evaluator when values are changed in a given way, and `Output.Tracks` says what a relation of
outputs must have in common with writing when traced calls are kept or not. For any such relations
the evaluations of a tree, and of the tree with its traced calls kept or not, are in step: the trees
need one short case for each constructor (`Expr.eval_inStep` and its companions), and calls follow
by induction on how many of them may still be nested (`Function.call_inStep`).

The relation of environments depends on how many scopes are open above the scope that it is about.
Only if there are none may a statement declare a name in that scope, and only a free one.
-/

namespace Brisk

namespace Eval

variable {α β γ δ : Type} {R : Machine → Machine → Prop}

/-- Results are alike if both are values, the second the image of the first, or both the same error,
and the machines that are left are related. -/
inductive Alike (R : Machine → Machine → Prop) (g : α → β) :
    EStateM.Result Stop Machine α → EStateM.Result Stop Machine β → Prop where
  | ok {a : α} {m m' : Machine} (h : R m m') : Alike R g (.ok a m) (.ok (g a) m')
  | error {e : Stop} {m m' : Machine} (h : R m m') : Alike R g (.error e m) (.error e m')

/-- Evaluations are in step if they come to alike results from related machines. -/
def InStep (R : Machine → Machine → Prop) (g : α → β) (action : Eval α) (action' : Eval β) : Prop :=
  ∀ m m' : Machine, R m m' → Alike R g (action m) (action' m')

/-! ## Sequencing and loops -/

/-- Values are in step with their images. -/
theorem inStep_pure (g : α → β) (a : α) : InStep R g (pure a) (pure (g a)) :=
  fun _ _ h => .ok h

/-- An error is in step with itself. -/
theorem inStep_throw (g : α → β) (e : Stop) : InStep R g (throw e) (throw e) :=
  fun _ _ h => .error h

/-- Results that may be errors are in step with their images. -/
theorem inStep_ofExcept (g : α → β) (r : Except RuntimeError α) :
    InStep R g (ofExcept r) (ofExcept (r.map g)) := by
  cases r with
  | ok a => exact inStep_pure g a
  | error e => exact inStep_throw g _

/-- Sequences are in step if what comes first is, and what comes next for every value of it. -/
theorem inStep_bind {g : α → β} {h : γ → δ} {action : Eval α} {action' : Eval β}
    {next : α → Eval γ} {next' : β → Eval δ} (haction : InStep R g action action')
    (hnext : ∀ a, InStep R h (next a) (next' (g a))) :
    InStep R h (action >>= next) (action' >>= next') := by
  intro m m' hm
  show Alike R h (EStateM.bind action next m) (EStateM.bind action' next' m')
  unfold EStateM.bind
  have halike := haction m m' hm
  generalize action m = result, action' m' = result' at halike
  cases halike with
  | ok h' => exact hnext _ _ _ h'
  | error h' => exact .error h'

/-- Evaluations in changed machines are in step if they are for the relation that holds between the
changed ones. -/
theorem inStep_within {S : Machine → Machine → Prop} {g : α → β}
    {enter enter' leave leave' : Machine → Machine} {body : Eval α} {body' : Eval β}
    (henter : ∀ m m', R m m' → S (enter m) (enter' m'))
    (hleave : ∀ m m', S m m' → R (leave m) (leave' m')) (h : InStep S g body body') :
    InStep R g (within enter leave body) (within enter' leave' body') := by
  intro m m' hm
  have halike := h (enter m) (enter' m') (henter m m' hm)
  unfold within
  generalize body (enter m) = result, body' (enter' m') = result' at halike
  cases halike with
  | ok h' => exact .ok (hleave _ _ h')
  | error h' => exact .error (hleave _ _ h')

/-- Returning what is made of a value. -/
theorem inStep_return {g : α → β} {h : γ → δ} {action : Eval α} {action' : Eval β} {k : α → γ}
    {k' : β → δ} (haction : InStep R g action action') (hk : ∀ a, k' (g a) = h (k a)) :
    InStep R h (do return k (← action)) (do return k' (← action')) := by
  refine inStep_bind haction fun a => ?_
  rw [hk]
  exact inStep_pure h (k a)

/-- A truth value has no body, so both tests come to the same one or fail alike. -/
theorem inStep_truth (φ : List Stmt → List Stmt) (statement : Keyword) (v : Value) :
    InStep R id (truth statement v) (truth statement (v.mapBodies φ)) := by
  cases v with
  | bool b => exact inStep_pure id b
  | unit | int | float | str | function => exact inStep_throw id _

/-- Loops are in step if their rounds are, and a round goes on or leaves the loop on both sides. -/
theorem inStep_repeatWhile {h : Flow → Flow} (hunit : h (.normal .unit) = .normal .unit)
    (hnormal : ∀ v, ∃ v', h (.normal v) = .normal v')
    (hleave : ∀ v, ∃ v', h (.leave v) = .leave v') {test test' : Eval Bool}
    {body body' : Eval Flow} (htest : InStep R id test test') (hbody : InStep R h body body')
    (rounds : Nat) :
    InStep R h (repeatWhile test body rounds) (repeatWhile test' body' rounds) := by
  -- Both loops have the same rounds, so the induction takes one from each.
  induction rounds with
  | zero => exact inStep_throw _ _
  | succ rounds ih =>
    unfold repeatWhile
    refine inStep_bind htest fun goesOn => ?_
    cases goesOn with
    -- The loop ends with the unit, which is mapped to itself.
    | false =>
      have hpure := inStep_pure (R := R) h (.normal .unit)
      rwa [hunit] at hpure
    | true =>
      refine inStep_bind hbody fun flow => ?_
      cases flow with
      | normal v =>
        obtain ⟨v', hv⟩ := hnormal v
        -- Whether the loop is left must not depend on the map.
        rw [hv]
        exact ih
      | leave v =>
        obtain ⟨v', hv⟩ := hleave v
        have hpure := inStep_pure (R := R) h (.leave v)
        rw [hv] at hpure ⊢
        exact hpure

end Eval

/-! ## Relations of machines -/

/-- What a relation of environments has in common with the operations on them if the values on the
second side are those on the first side, changed by `c`. The relation depends on the number of
scopes that are open above the scope that it is about, and in that scope only free names may be
declared. -/
structure Environment.Simulates (c : Value → Value) (Free : String → Prop)
    (E : Nat → Environment → Environment → Prop) : Prop where
  push : ∀ {n env env'}, E n env env' → E (n + 1) env.push env'.push
  pop : ∀ {n env env'}, E (n + 1) env env' → E n env.pop env'.pop
  lookup : ∀ {n env env'}, E n env env' → ∀ name, env'.lookup name = (env.lookup name).map c
  declare : ∀ {n env env'}, E n env env' → ∀ {name}, (n = 0 → Free name) → ∀ v mutable,
    (∃ env₁ env₁', env.declare? name v mutable = some env₁ ∧
      env'.declare? name (c v) mutable = some env₁' ∧ E n env₁ env₁') ∨
    (env.declare? name v mutable = none ∧ env'.declare? name (c v) mutable = none)
  assign : ∀ {n env env'}, E n env env' → ∀ name v,
    (∃ env₁ env₁', env.assign name v = .ok env₁ ∧ env'.assign name (c v) = .ok env₁' ∧
      E n env₁ env₁') ∨
    ∃ e, env.assign name v = .error e ∧ env'.assign name (c v) = .error e

/-- Environments that differ in the bodies of functions only stay so under all operations. -/
theorem Environment.simulates_mapBodies (φ : List Stmt → List Stmt) :
    Environment.Simulates (Value.mapBodies φ) (fun _ => True)
      (fun _ env env' => env' = env.mapBodies φ) where
  push := by
    -- An environment is changed by changing the bodies of what it binds, scope by scope.
    rintro n env _ rfl
    rfl
  pop := by
    rintro n env _ rfl
    exact congrArg Environment.mk List.map_tail.symm
  lookup := by
    rintro n env _ rfl name
    exact env.lookup_mapBodies φ name
  declare := by
    rintro n env _ rfl name - v mutable
    rw [env.declare?_mapBodies]
    cases env.declare? name v mutable with
    | some env₁ => exact .inl ⟨env₁, _, rfl, rfl, rfl⟩
    | none => exact .inr ⟨rfl, rfl⟩
  assign := by
    rintro n env _ rfl name v
    rw [env.assign_mapBodies]
    cases env.assign name v with
    | ok env₁ => exact .inl ⟨env₁, _, rfl, rfl, rfl⟩
    | error e => exact .inr ⟨e, rfl, rfl⟩

/-- What a relation of outputs has in common with writing. What is printed is written to both. The
traces are written to both if they are kept, and else to the first only, which must have room. -/
structure Output.Tracks (keep : Bool) (O : Output → Output → Prop) : Prop where
  both : ∀ {out out'}, O out out' → ∀ {origin}, (keep = true ∨ origin = .print) → ∀ text,
    (out'.write origin text).1 = (out.write origin text).1 ∧
      O (out.write origin text).2 (out'.write origin text).2
  first : ∀ {out out'}, O out out' → ∀ {origin}, keep = false → origin ≠ .print → ∀ text,
    (out.write origin text).1 = true ∧ O (out.write origin text).2 out'

/-- What is written goes to both outputs if nothing is done about traced calls. -/
theorem Output.tracks_eq : Output.Tracks true (fun out out' => out' = out) where
  both := by
    rintro out _ rfl origin - text
    exact ⟨rfl, rfl⟩
  first := by
    intro out out' _ origin hkeep
    exact absurd hkeep (by decide)

/-- Machines are related if their environments and outputs are and the calls in progress are
equally many. -/
structure Machine.Related (E : Environment → Environment → Prop) (O : Output → Output → Prop)
    (m m' : Machine) : Prop where
  environment : E m.environment m'.environment
  output : O m.output m'.output
  depth_eq : m'.depth = m.depth

namespace Eval

open Machine (Related)

variable {α β : Type} {keep : Bool} {c : Value → Value} {Free : String → Prop}
  {E : Nat → Environment → Environment → Prop} {O : Output → Output → Prop}

/-- Calls end in step if what they evaluate does. -/
theorem inStep_inCall {E : Environment → Environment → Prop} {g : α → β} {body : Eval α}
    {body' : Eval β} (h : InStep (Related E O) g body body') :
    InStep (Related E O) g (inCall body) (inCall body') := by
  rw [inCall_eq_within, inCall_eq_within]
  refine inStep_within (fun m m' hm => ?_) (fun m m' hm => ?_) h
  · exact ⟨hm.environment, hm.output, congrArg (· + 1) hm.depth_eq⟩
  · exact ⟨hm.environment, hm.output, congrArg (· - 1) hm.depth_eq⟩

section Simulates

variable (hE : Environment.Simulates c Free E)
include hE

/-- What is evaluated in a scope of its own may declare anything there. -/
theorem inStep_inScope {n : Nat} {g : α → β} {body : Eval α} {body' : Eval β}
    (h : InStep (Related (E (n + 1)) O) g body body') :
    InStep (Related (E n) O) g (inScope body) (inScope body') := by
  rw [inScope_eq_within, inScope_eq_within]
  refine inStep_within (fun m m' hm => ?_) (fun m m' hm => ?_) h
  · exact ⟨hE.push hm.environment, hm.output, hm.depth_eq⟩
  · exact ⟨hE.pop hm.environment, hm.output, hm.depth_eq⟩

/-- The value of a name on the second side is the changed one. -/
theorem inStep_lookup (n : Nat) (name : String) :
    InStep (Related (E n) O) c (lookup name) (lookup name) := by
  intro m m' hm
  unfold lookup
  rw [hE.lookup hm.environment]
  cases m.environment.lookup name with
  | some v => exact .ok hm
  | none => exact .error hm

/-- A name can be declared on both sides or on neither. -/
theorem inStep_declare {n : Nat} {name : String} (hfree : n = 0 → Free name) (v : Value)
    (mutable : Bool) :
    InStep (Related (E n) O) id (declare name v mutable)
      (declare name (c v) mutable) := by
  intro m m' hm
  unfold declare
  obtain ⟨env, env', h, h', henv⟩ | ⟨h, h'⟩ := hE.declare hm.environment hfree v mutable
  · rw [h, h']
    exact .ok ⟨henv, hm.output, hm.depth_eq⟩
  · rw [h, h']
    exact .error hm

/-- A name can be assigned to on both sides, or on neither for the same reason. -/
theorem inStep_assign (n : Nat) (name : String) (v : Value) :
    InStep (Related (E n) O) id (Eval.assign name v) (Eval.assign name (c v)) := by
  intro m m' hm
  unfold Eval.assign
  obtain ⟨env, env', h, h', henv⟩ | ⟨e, h, h'⟩ := hE.assign hm.environment name v
  · rw [h, h']
    exact .ok ⟨henv, hm.output, hm.depth_eq⟩
  · rw [h, h']
    cases e <;> exact .error hm

/-- Parameters are declared in the scope of a call, above the scope that the relation is about. -/
theorem inStep_bindAll (n : Nat) (ps : List Parameter) (vs : List Value) :
    InStep (Related (E (n + 1)) O) id (bindAll ps vs)
      (bindAll ps (vs.map c)) := by
  induction ps generalizing vs with
  | nil => exact inStep_pure id ()
  | cons p ps ih =>
    cases vs with
    | nil => exact inStep_pure id ()
    | cons v vs =>
      exact inStep_bind (inStep_declare hE (fun h => absurd h (Nat.succ_ne_zero n)) v p.mutable)
        fun _ => ih vs

end Simulates

/-- A line that is written to both outputs. -/
theorem inStep_writeLine (hO : Output.Tracks keep O) {E : Environment → Environment → Prop}
    {origin : Origin} (h : keep = true ∨ origin = .print) (line : String) :
    InStep (Related E O) id (writeLine origin line) (writeLine origin line) := by
  intro m m' hm
  obtain ⟨hdone, hout⟩ := hO.both hm.output h (line ++ "\n")
  unfold writeLine
  generalize m.output.write origin (line ++ "\n") = w,
    m'.output.write origin (line ++ "\n") = w' at hdone hout
  -- Both writes succeed or both fail, whatever has been written before.
  obtain ⟨done, output⟩ := w
  obtain ⟨done', output'⟩ := w'
  obtain rfl : done' = done := hdone
  cases done' with
  | true => exact .ok ⟨hm.environment, hout, hm.depth_eq⟩
  | false => exact .error ⟨hm.environment, hout, hm.depth_eq⟩

/-- Values are printed to both outputs, and changed values that are written alike too. -/
theorem inStep_print (hO : Output.Tracks keep O) {E : Environment → Environment → Prop}
    (hc : ∀ v, (c v).text = v.text) (vs : List Value) :
    InStep (Related E O) id (vs.forM fun v => writeLine .print v.text)
      ((vs.map c).forM fun v => writeLine .print v.text) := by
  induction vs with
  | nil => exact inStep_pure id ()
  | cons v vs ih =>
    refine inStep_bind (g := id) ?_ fun _ => ih
    show InStep _ id (writeLine .print v.text) (writeLine .print (c v).text)
    rw [hc]
    exact inStep_writeLine hO (.inr rfl) v.text

/-- A trace that is written to the first output only. -/
theorem inStep_writeLine_bind (hO : Output.Tracks keep O)
    {E : Environment → Environment → Prop} {g : α → β} {origin : Origin} (hkeep : keep = false)
    (horigin : origin ≠ .print) (line : String) {next : Eval α} {next' : Eval β}
    (hnext : InStep (Related E O) g next next') :
    InStep (Related E O) g (writeLine origin line >>= fun _ => next) next' := by
  intro m m' hm
  obtain ⟨hdone, hout⟩ := hO.first hm.output hkeep horigin (line ++ "\n")
  have hwrite : (writeLine origin line >>= fun _ => next) m =
      next { m with output := (m.output.write origin (line ++ "\n")).2 } := by
    show EStateM.bind (writeLine origin line) (fun _ => next) m = _
    unfold EStateM.bind writeLine
    rw [← Prod.eta (m.output.write origin (line ++ "\n")), hdone]
    rfl
  rw [hwrite]
  exact hnext _ _ ⟨hm.environment, hout, hm.depth_eq⟩

end Eval

/-! ## Trees -/

open Eval
open Machine (Related)

variable {keep : Bool} {Free : String → Prop} {E : Nat → Environment → Environment → Prop}
  {O : Output → Output → Prop}

/-- A call is evaluated like one that is traced if it was and traced calls are kept: the parentheses
around what is called do not matter. -/
theorem Expr.eval_retrace_call (keep : Bool) (call : Call) (rounds : Nat) (traced : Bool)
    (callee : Expr) (arguments : List Expr) :
    ((Expr.call traced callee arguments).retrace keep).eval call rounds =
      (Expr.call (traced && keep) (callee.retrace keep) (Expr.listRetrace keep arguments)).eval call
        rounds := by
  cases traced with
  | false => rw [Expr.retrace, Bool.false_and]
  | true =>
    rw [Expr.retrace, Bool.true_and]
    cases keep with
    | true => rfl
    | false =>
      rw [if_neg Bool.false_ne_true, Expr.eval, Expr.eval, Expr.eval]

/-- Calls are in step when functions are called that differ in their traced calls only. -/
def Eval.CallsInStep (keep : Bool) (R : Nat → Machine → Machine → Prop) (call call' : Call) :
    Prop :=
  ∀ (n : Nat) (traced : Bool) (f : Function) (vs : List Value),
    InStep (R n) (Value.retrace keep) (call traced f vs)
      (call' (traced && keep) (f.retrace keep) (vs.map (Value.retrace keep)))

section Tree

variable {call call' : Call} {rounds : Nat}

mutual

/-- Expressions are evaluated in step. -/
theorem Expr.eval_inStep (hE : Environment.Simulates (Value.retrace keep) Free E)
    (hcall : CallsInStep keep (fun n => Related (E n) O) call call') (n : Nat) :
    ∀ e : Expr, InStep (Related (E n) O) (Value.retrace keep) (e.eval call rounds)
      ((e.retrace keep).eval call' rounds)
  | .assign target value => by
    rw [Expr.retrace, Expr.eval, Expr.eval]
    refine inStep_bind (value.eval_inStep hE hcall n) fun v => ?_
    exact inStep_bind (inStep_assign hE n target v) fun _ => inStep_pure _ v
  | .binary op left right => by
    rw [Expr.retrace, Expr.eval, Expr.eval]
    refine inStep_bind (left.eval_inStep hE hcall n) fun l => ?_
    refine inStep_bind (right.eval_inStep hE hcall n) fun r => ?_
    rw [op.apply_mapBodies]
    exact inStep_ofExcept _ _
  | .cast operand target => by
    rw [Expr.retrace, Expr.eval, Expr.eval]
    refine inStep_bind (operand.eval_inStep hE hcall n) fun v => ?_
    rw [v.cast_mapBodies]
    exact inStep_ofExcept _ _
  | .unary op operand => by
    rw [Expr.retrace, Expr.eval, Expr.eval]
    refine inStep_bind (operand.eval_inStep hE hcall n) fun v => ?_
    rw [op.apply_mapBodies]
    exact inStep_ofExcept _ _
  | .call traced callee arguments => by
    rw [Expr.eval_retrace_call, Expr.eval, Expr.eval]
    refine inStep_bind (callee.eval_inStep hE hcall n) fun v => ?_
    -- The arguments are only evaluated if there is a function to call.
    cases v with
    | function f =>
      exact inStep_bind (Expr.evalAll_inStep hE hcall n arguments) fun vs => hcall n traced f vs
    | unit | int | float | str | bool => exact inStep_throw _ _
  | .lambda parameters body => by
    -- The body of a lambda changes like the blocks of the program.
    rw [Expr.retrace, Expr.eval, Expr.eval]
    exact inStep_pure _ (Value.function (.user parameters body))
  | .name name => by
    rw [Expr.retrace, Expr.eval, Expr.eval]
    exact inStep_lookup hE n name
  | .paren inner => by
    rw [Expr.retrace, Expr.eval, Expr.eval]
    exact inner.eval_inStep hE hcall n
  | .literal value => by
    rw [Expr.retrace, Expr.eval, Expr.eval]
    have h := inStep_pure (R := Related (E n) O) (Value.retrace keep) (.ofLiteral value)
    rwa [Value.retrace, Value.mapBodies_ofLiteral] at h

/-- Arguments are evaluated in step. -/
theorem Expr.evalAll_inStep (hE : Environment.Simulates (Value.retrace keep) Free E)
    (hcall : CallsInStep keep (fun n => Related (E n) O) call call') (n : Nat) :
    ∀ es : List Expr, InStep (Related (E n) O) (List.map (Value.retrace keep))
      (Expr.evalAll call rounds es) (Expr.evalAll call' rounds (Expr.listRetrace keep es))
  | [] => by
    rw [Expr.listRetrace, Expr.evalAll, Expr.evalAll]
    exact inStep_pure _ []
  | e :: es => by
    rw [Expr.listRetrace, Expr.evalAll, Expr.evalAll]
    refine inStep_bind (e.eval_inStep hE hcall n) fun v => ?_
    exact inStep_bind (Expr.evalAll_inStep hE hcall n es) fun vs => inStep_pure _ (v :: vs)

/-- Statements are executed in step if in the scope that the relation is about they only declare
free names. -/
theorem Stmt.exec_inStep (hE : Environment.Simulates (Value.retrace keep) Free E)
    (hcall : CallsInStep keep (fun n => Related (E n) O) call call') (n : Nat) :
    ∀ s : Stmt, (n = 0 → ∀ name ∈ s.declared, Free name) →
    InStep (Related (E n) O) (Flow.retrace keep) (s.exec call rounds)
      ((s.retrace keep).exec call' rounds)
  | .function name parameters body, hfree => by
    rw [Stmt.retrace, Stmt.exec, Stmt.exec]
    -- Only the names that are declared in the outermost scope must be free there.
    have hname : n = 0 → Free name := fun hn => hfree hn name (List.mem_singleton_self name)
    have hdeclare := inStep_declare (O := O) hE hname
      (.function (.user parameters body)) false
    exact inStep_bind hdeclare fun _ => inStep_pure _ (Flow.normal .unit)
  | .declare name mutable value, hfree => by
    rw [Stmt.retrace, Stmt.exec, Stmt.exec]
    have hname : n = 0 → Free name := fun hn => hfree hn name (List.mem_singleton_self name)
    refine inStep_bind (value.eval_inStep hE hcall n) fun v => ?_
    refine inStep_bind (inStep_declare hE hname v mutable) fun _ => ?_
    exact inStep_pure _ (Flow.normal .unit)
  | .loop condition body, _ => by
    rw [Stmt.retrace, Stmt.exec, Stmt.exec]
    refine inStep_repeatWhile rfl (fun _ => ⟨_, rfl⟩) (fun _ => ⟨_, rfl⟩) ?_
      (inStep_inScope hE ?_) rounds
    · refine inStep_bind (condition.eval_inStep hE hcall n) fun v => ?_
      exact inStep_truth _ _ v
    · -- The body of a loop has a scope of its own, in which all names are free.
      exact Stmt.execAll_inStep hE hcall (n + 1) .unit body fun h => absurd h (Nat.succ_ne_zero n)
  | .conditional c, _ => by
    rw [Stmt.retrace, Stmt.exec, Stmt.exec]
    exact c.exec_inStep hE hcall n
  | .leave none, _ => by
    rw [Stmt.retrace, Stmt.exec, Stmt.exec]
    exact inStep_pure _ (Flow.leave .unit)
  | .leave (some value), _ => by
    rw [Stmt.retrace, Stmt.exec, Stmt.exec]
    exact inStep_bind (value.eval_inStep hE hcall n) fun v => inStep_pure _ (Flow.leave v)
  | .expression e, _ => by
    rw [Stmt.retrace, Stmt.exec, Stmt.exec]
    exact inStep_bind (e.eval_inStep hE hcall n) fun v => inStep_pure _ (Flow.normal v)
  | .empty, _ => by
    rw [Stmt.retrace, Stmt.exec, Stmt.exec]
    exact inStep_pure _ (Flow.normal .unit)

/-- Statements that follow one another are executed in step. -/
theorem Stmt.execAll_inStep (hE : Environment.Simulates (Value.retrace keep) Free E)
    (hcall : CallsInStep keep (fun n => Related (E n) O) call call') (n : Nat) (last : Value) :
    ∀ ss : List Stmt, (n = 0 → ∀ name ∈ ss.flatMap Stmt.declared, Free name) →
    InStep (Related (E n) O) (Flow.retrace keep) (Stmt.execAll call rounds last ss)
      (Stmt.execAll call' rounds (last.retrace keep) (Stmt.listRetrace keep ss))
  | [], _ => by
    rw [Stmt.listRetrace, Stmt.execAll, Stmt.execAll]
    exact inStep_pure _ (Flow.normal last)
  | s :: ss, hfree => by
    rw [Stmt.listRetrace, Stmt.execAll, Stmt.execAll]
    rw [List.flatMap_cons] at hfree
    -- The names of all statements are free, and so are those of the first one and of the others.
    have hhead : n = 0 → ∀ name ∈ s.declared, Free name :=
      fun hn name h => hfree hn name (List.mem_append_left _ h)
    refine inStep_bind (s.exec_inStep hE hcall n hhead) fun flow => ?_
    cases flow with
    | normal v =>
      exact Stmt.execAll_inStep hE hcall n v ss
        fun hn name h => hfree hn name (List.mem_append_right _ h)
    | leave v => exact inStep_pure _ (Flow.leave v)

/-- Conditionals are executed in step. -/
theorem Conditional.exec_inStep (hE : Environment.Simulates (Value.retrace keep) Free E)
    (hcall : CallsInStep keep (fun n => Related (E n) O) call call') (n : Nat) :
    ∀ c : Conditional, InStep (Related (E n) O) (Flow.retrace keep) (c.exec call rounds)
      ((c.retrace keep).exec call' rounds)
  | .mk condition body otherwise => by
    rw [Conditional.retrace, Conditional.exec, Conditional.exec]
    refine inStep_bind (condition.eval_inStep hE hcall n) fun v => ?_
    refine inStep_bind (inStep_truth _ _ v) fun holds => ?_
    cases holds with
    | true =>
      refine inStep_return (inStep_inScope hE ?_) fun flow => flow.settle_mapBodies _
      exact Stmt.execAll_inStep hE hcall (n + 1) .unit body fun h => absurd h (Nat.succ_ne_zero n)
    | false =>
      exact inStep_return (otherwise.exec_inStep hE hcall n) fun flow => flow.settle_mapBodies _

/-- What is executed otherwise is executed in step. -/
theorem Alternative.exec_inStep (hE : Environment.Simulates (Value.retrace keep) Free E)
    (hcall : CallsInStep keep (fun n => Related (E n) O) call call') (n : Nat) :
    ∀ a : Alternative, InStep (Related (E n) O) (Flow.retrace keep) (a.exec call rounds)
      ((a.retrace keep).exec call' rounds)
  | .nothing => by
    rw [Alternative.retrace, Alternative.exec, Alternative.exec]
    exact inStep_pure _ (Flow.normal .unit)
  | .block body => by
    rw [Alternative.retrace, Alternative.exec, Alternative.exec]
    refine inStep_inScope hE ?_
    exact Stmt.execAll_inStep hE hcall (n + 1) .unit body fun h => absurd h (Nat.succ_ne_zero n)
  | .chain c => by
    rw [Alternative.retrace, Alternative.exec, Alternative.exec]
    exact c.exec_inStep hE hcall n

end

end Tree

/-! ## Calls -/

/-- The line that reports a call shows of functions only that they are functions. -/
theorem Function.callLine_retrace (keep : Bool) (f : Function) (vs : List Value) :
    (f.retrace keep).callLine (vs.map (Value.retrace keep)) = f.callLine vs := by
  unfold callLine
  rw [f.parameters_mapBodies, List.zipWith_map_right]
  simp only [Value.text_mapBodies]

/-- The line that reports a result shows of functions only that they are functions. -/
theorem Function.returnLine_retrace (keep : Bool) (v : Value) :
    returnLine (v.retrace keep) = returnLine v := by
  rw [returnLine, returnLine, v.text_mapBodies]

section Call

variable (hE : Environment.Simulates (Value.retrace keep) Free E) (hO : Output.Tracks keep O)
include hE hO

section Enter

variable {call call' : Call} (hcall : CallsInStep keep (fun n => Related (E n) O) call call')
include hcall

/-- The bodies of functions are evaluated in step. -/
theorem Function.enter_inStep (rounds n : Nat) (f : Function) (vs : List Value) :
    InStep (Related (E n) O) (Value.retrace keep) (f.enter call rounds vs)
      ((f.retrace keep).enter call' rounds (vs.map (Value.retrace keep))) := by
  cases f with
  | print =>
    rw [Function.retrace, Function.mapBodies, Function.enter, Function.enter]
    exact inStep_bind (inStep_print hO (fun v => v.text_mapBodies _) vs)
      fun _ => inStep_pure _ Value.unit
  | user parameters body =>
    rw [Function.retrace, Function.mapBodies, Function.enter, Function.enter]
    refine inStep_inScope hE
      (inStep_bind (inStep_bindAll hE n parameters vs) fun _ => ?_)
    refine inStep_return ?_ fun flow => flow.returned_mapBodies _
    -- The body of a function is executed in the scope of its call, never in the outermost one.
    exact Stmt.execAll_inStep hE hcall (n + 1) .unit body fun h => absurd h (Nat.succ_ne_zero n)
  | composed first second =>
    rw [Function.retrace, Function.mapBodies, Function.enter, Function.enter]
    exact inStep_bind (hcall n false first vs) fun v => hcall n false second [v]

/-- The bodies of functions are evaluated in step, whether the traces around them are kept or
not. -/
theorem Function.enterTraced_inStep (rounds n : Nat) (traced : Bool) (f : Function)
    (vs : List Value) :
    InStep (Related (E n) O) (Value.retrace keep) (f.enterTraced call rounds traced vs)
      ((f.retrace keep).enterTraced call' rounds (traced && keep)
        (vs.map (Value.retrace keep))) := by
  have henter := f.enter_inStep hE hO hcall rounds n vs
  cases traced with
  | false => exact henter
  | true =>
    rw [Bool.true_and]
    unfold Function.enterTraced
    -- The first call is traced, and the second one only if traces are kept.
    rw [if_pos rfl]
    cases keep with
    | true =>
      rw [if_pos rfl, f.callLine_retrace]
      refine inStep_bind (inStep_writeLine hO (.inl rfl) _) fun _ => ?_
      refine inStep_bind henter fun v => ?_
      rw [Function.returnLine_retrace]
      exact inStep_bind (inStep_writeLine hO (.inl rfl) _) fun _ => inStep_pure _ v
    | false =>
      rw [if_neg Bool.false_ne_true]
      refine inStep_writeLine_bind hO rfl (by decide) _ ?_
      -- The second evaluation ends with its body, and only the first goes on.
      rw [← bind_pure ((f.retrace false).enter call' rounds (vs.map (Value.retrace false)))]
      refine inStep_bind henter fun v => ?_
      exact inStep_writeLine_bind hO rfl (by decide) _ (inStep_pure _ v)

end Enter

/-- Calls are in step, however many of them may still be nested. -/
theorem Function.call_inStep (bounds : Bounds) (depth : Nat) :
    CallsInStep keep (fun n => Related (E n) O) (Function.call bounds depth)
      (Function.call bounds depth) := by
  -- The induction is on the calls that may still be nested.
  induction depth with
  | zero =>
    intro n traced f vs
    unfold Function.call
    rw [f.arity_mapBodies, List.length_map]
    split
    · exact inStep_throw _ _
    · exact inStep_throw _ _
  | succ depth ih =>
    intro n traced f vs
    unfold Function.call
    rw [f.arity_mapBodies, List.length_map]
    split
    · exact inStep_inCall (f.enterTraced_inStep hE hO ih bounds.rounds n traced vs)
    · exact inStep_throw _ _

/-- Calls that are as deep as those in progress leave room for are in step. -/
theorem Bounds.call_inStep (bounds : Bounds) :
    CallsInStep keep (fun n => Related (E n) O) bounds.call bounds.call := by
  intro n traced f vs m m' hm
  unfold Bounds.call
  rw [hm.depth_eq]
  exact Function.call_inStep hE hO bounds (bounds.callDepth - m.depth) n traced f vs m m' hm

/-- Statements are executed in step if in the scope that the relation is about they only declare
free names. -/
theorem Bounds.statements_inStep (bounds : Bounds) (n : Nat) (ss : List Stmt)
    (hfree : n = 0 → ∀ name ∈ ss.flatMap Stmt.declared, Free name) :
    InStep (Related (E n) O) (Flow.retrace keep) (bounds.statements ss)
      (bounds.statements (Stmt.listRetrace keep ss)) :=
  Stmt.execAll_inStep hE (bounds.call_inStep hE hO) n .unit ss hfree

end Call

end Brisk
