import Brisk.Proofs.Evaluation.Frame

/-!
# What a session leaves alone

A session is used step by step: sources are evaluated in its scope, run in a scope of their own, or
only parsed. `evaluation_frame` gathers what each way of evaluating leaves alone, and what is left
after any number of steps, failed ones among them: no call is in progress, and the open scopes are
the session's own and the one around it, which still binds the printing function and nothing else.
-/

namespace Brisk

open Eval
open Machine (Frame)

namespace Session

/-- One use of a session. -/
inductive Step where
  /-- Evaluates a source in the scope of the session. -/
  | eval (src : Source)
  /-- Runs a source in a scope of its own. -/
  | run (src : Source)
  /-- Parses a source and evaluates nothing. -/
  | parse (src : Source)

/-- The session that a step leaves, whether it fails or not. Parsing leaves it as it is. -/
def step (session : Session) : Step → Session
  | .eval src => (session.eval src).2
  | .run src => (session.run src).2
  | .parse _ => session

/-- The session that steps leave. -/
def steps (session : Session) (steps : List Step) : Session := steps.foldl step session

/-- What every step keeps, any number of steps do. -/
theorem steps_of_step {P : Session → Prop}
    (hstep : ∀ (session : Session) (s : Step), P session → P (session.step s)) {session : Session}
    (h : P session) (steps : List Step) : P (session.steps steps) := by
  induction steps generalizing session with
  | nil => exact h
  | cons s steps ih => exact ih (hstep session s h)

end Session

namespace Bounds

variable (bounds : Bounds)

/-- A block declares nothing outside of it. -/
theorem block_keeps (ss : List Stmt) : Keeps (Frame []) (bounds.block ss) :=
  keeps_inScope (Stmt.execAll_keeps bounds.call_keeps .unit ss)

/-- A program in a scope of its own declares nothing outside of it. -/
theorem program_keeps (p : Program) : Keeps (Frame []) (bounds.program p) :=
  keeps_bind (bounds.block_keeps p.statements) fun _ => keeps_pure _

/-- A program in a scope of its own declares nothing outside of it, also when only its value is
asked for. -/
theorem run_keeps (p : Program) : Keeps (Frame []) (bounds.run p) :=
  keeps_bind (bounds.program_keeps p) fun _ => keeps_pure _

/-- A program in a session declares what its statements declare, and nothing else. -/
theorem runInSession_keeps (p : Program) :
    Keeps (Frame (p.statements.flatMap Stmt.declared)) (bounds.runInSession p) :=
  keeps_bind (Stmt.execAll_keeps bounds.call_keeps .unit p.statements) fun _ => keeps_pure _

end Bounds

/-- Whether no call is in progress in a machine, and its scopes are one scope above the one that a
session starts with. -/
def Machine.AtRest (m : Machine) : Prop :=
  m.depth = 0 ∧ ∃ session prelude, m.environment.scopes = [session, prelude] ∧
    ∀ name, prelude.lookup name = if name = "print" then some ⟨.function .print, false⟩ else none

/-- The initial environment is at rest. -/
theorem Machine.atRest_initial (out : Output) : Machine.AtRest ⟨.initial, out, 0⟩ := by
  refine ⟨rfl, [], [("print", ⟨.function .print, false⟩)], rfl, fun name => ?_⟩
  by_cases h : name = "print"
  · rw [if_pos h, h, List.lookup_cons_self]
  · rw [if_neg h, List.lookup_cons, beq_eq_false_iff_ne.mpr h, List.lookup_nil]

/-- What keeps the frame of a machine leaves it at rest. -/
theorem Machine.AtRest.of_frame {fresh : List String} {m m' : Machine} (hm : m.AtRest)
    (h : m.Frame fresh m') : m'.AtRest := by
  -- There are two scopes before and after, and the outer one is that of the prelude.
  obtain ⟨hdepth, session, prelude, hscopes, hprelude⟩ := hm
  have hstack := h.environment
  unfold Environment.Frame at hstack
  rw [hscopes] at hstack
  generalize hs' : m'.environment.scopes = scopes' at hstack
  obtain _ | ⟨-, _ | ⟨hframe, _ | _⟩⟩ := hstack
  rename_i session' prelude'
  refine ⟨h.depth_eq.trans hdepth, session', prelude', hs', fun name => ?_⟩
  by_cases hname : name = "print"
  · -- The printing function is bound immutably, so its binding is the same.
    have hprint := hprelude name
    rw [if_pos hname] at hprint ⊢
    obtain ⟨⟨v, mutable⟩, hb, hmut, hval⟩ := hframe.kept name _ hprint
    rw [hb]
    have hv : v = .function .print := hval rfl
    have hmutable : mutable = false := hmut
    rw [hv, hmutable]
  · rw [if_neg hname]
    rw [hframe.lookup_eq_none_iff, hprelude, if_neg hname]

/-- A source leaves the machine of a session at rest if all that can be made of a program does. What
the program declares stays, so the frame may depend on the program that is read. -/
theorem Session.runWith_atRest {α : Type} {session : Session} (hm : session.machine.AtRest)
    (src : Source) {action : Program → Eval α} (h : ∀ p, ∃ fresh, Keeps (Frame fresh) (action p)) :
    (session.runWith src action).2.machine.AtRest := by
  unfold runWith
  cases session.parse src with
  | error e => exact hm
  | ok program =>
    obtain ⟨fresh, hkeeps⟩ := h program
    unfold perform
    simp only
    cases ha : action program session.machine with
    | ok a m => exact hm.of_frame (hkeeps.ok ha)
    | error e m => exact hm.of_frame (hkeeps.error ha)

/-- A step leaves the machine of a session at rest. -/
theorem Session.step_atRest {session : Session} (hm : session.machine.AtRest) (s : Step) :
    (session.step s).machine.AtRest := by
  cases s with
  | eval src => exact runWith_atRest hm src fun p => ⟨_, session.bounds.runInSession_keeps p⟩
  | run src => exact runWith_atRest hm src fun p => ⟨_, session.bounds.run_keeps p⟩
  | parse src => exact hm

/-- Steps leave the machine of a session at rest. -/
theorem Session.steps_atRest {session : Session} (h : session.machine.AtRest)
    (steps : List Step) : (session.steps steps).machine.AtRest :=
  steps_of_step (P := fun session => session.machine.AtRest) (fun _ s hm => step_atRest hm s) h
    steps

/-- However it ends, an evaluation leaves as many calls in progress and as many scopes open as there
were. It loses no binding, changes no mark and no value of an immutable binding. Expressions,
blocks, conditionals, programs and calls add no binding, and statements add those that they declare.
So a session comes to rest after every step. -/
theorem evaluation_frame (bounds : Bounds) :
    (∀ e : Expr, Keeps (Frame []) (bounds.expression e)) ∧
      (∀ s : Stmt, Keeps (Frame s.declared) (bounds.statement s)) ∧
      (∀ ss : List Stmt, Keeps (Frame (ss.flatMap Stmt.declared)) (bounds.statements ss)) ∧
      (∀ ss : List Stmt, Keeps (Frame []) (bounds.block ss)) ∧
      (∀ c : Conditional, Keeps (Frame []) (c.exec bounds.call bounds.rounds)) ∧
      (∀ p : Program, Keeps (Frame []) (bounds.program p)) ∧
      (∀ p : Program, Keeps (Frame []) (bounds.run p)) ∧
      (∀ traced f vs, Keeps (Frame []) (bounds.call traced f vs)) ∧
      (∀ (limits : Limits) (out : Output) (steps : List Session.Step),
        ((Session.start limits bounds out).steps steps).machine.AtRest) := by
  refine ⟨fun e => e.eval_keeps bounds.call_keeps, fun s => s.exec_keeps bounds.call_keeps,
    Stmt.execAll_keeps bounds.call_keeps .unit, bounds.block_keeps,
    fun c => c.exec_keeps bounds.call_keeps, bounds.program_keeps, bounds.run_keeps,
    bounds.call_keeps, fun limits out steps => ?_⟩
  exact Session.steps_atRest (Machine.atRest_initial out) steps

end Brisk
