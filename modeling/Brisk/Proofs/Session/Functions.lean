import Brisk.Proofs.Evaluation.Functions
import Brisk.Proofs.Session.Pieces

/-!
# Well-formed functions in a session

A session starts with the printing function and runs programs that the parser has made. So the
functions that it has bound are well-formed after any number of steps, failed ones among them, and
in the course of the next step all functions are that are bound, handed around or called
(`function_values_wellFormed`).
-/

namespace Brisk

open Eval

/-- The error that there is instead of a result. -/
def SessionError.of? {α : Type} : Except SessionError α → Option SessionError
  | .ok _ => none
  | .error e => some e

/-- The error of a result is the error that it is. -/
theorem SessionError.of?_eq_some {α : Type} {r : Except SessionError α} {e : SessionError}
    (h : of? r = some e) : r = .error e := by
  cases r with
  | ok a => cases h
  | error e' => rw [Option.some.inj h]

namespace Session

/-- The error with which a step fails. -/
def error? (session : Session) : Step → Option SessionError
  | .eval src => SessionError.of? (session.eval src).1
  | .run src => SessionError.of? (session.run src).1
  | .parse src => SessionError.of? (session.parse src)

/-- `session.Visits step n t m` means that in the course of a step, a task is performed in a
machine while a number of calls is in progress. Sources are evaluated in the scope of the session,
or run in a scope of their own. -/
inductive Visits (session : Session) : Step → Nat → Task → Machine → Prop where
  | eval {src : Source} {p : Program} {n : Nat} {t : Task} {m : Machine}
      (hp : session.parse src = .ok p)
      (h : (Task.statements .unit p.statements).Visits session.bounds session.machine n t m) :
      Visits session (.eval src) n t m
  | run {src : Source} {p : Program} {n : Nat} {t : Task} {m : Machine}
      (hp : session.parse src = .ok p)
      (h : (Task.block p.statements).Visits session.bounds session.machine n t m) :
      Visits session (.run src) n t m

variable {session : Session} {src : Source} {p : Program}

/-- The functions in a parsed program are well-formed. -/
theorem meets_of_parse (h : session.parse src = .ok p) : p.Meets .wellFormed :=
  (Program.filled_of_parse (parse_eq_ok_iff.mp h)).1.meets

/-- A source leaves well-formed functions bound if all that can be made of a program does. -/
theorem runWith_meets {α : Type} {P : α → Prop} {action : Program → Eval α}
    (hm : session.machine.environment.Meets .wellFormed)
    (h : ∀ p : Program, p.Meets .wellFormed → Yields .wellFormed P (action p)) :
    (session.runWith src action).2.machine.environment.Meets .wellFormed := by
  unfold runWith
  cases hp : session.parse src with
  | error e => exact hm
  | ok p =>
    have hyields := h p (meets_of_parse hp)
    unfold perform
    simp only
    cases hr : action p session.machine with
    | ok a m => exact (hyields.ok hm hr).2
    | error e m => exact (hyields.error hm hr).2

/-- A step of a session keeps its functions well-formed. -/
theorem step_meets (hm : session.machine.environment.Meets .wellFormed) (step : Step) :
    (session.step step).machine.environment.Meets .wellFormed := by
  cases step with
  | eval src => exact runWith_meets hm fun p hp => session.bounds.runInSession_yields hp
  | run src => exact runWith_meets hm fun p hp => session.bounds.run_yields hp
  | parse src => exact hm

/-- The steps of a session, one behind the other, keep its functions well-formed. -/
theorem steps_meets (hm : session.machine.environment.Meets .wellFormed) (steps : List Step) :
    (session.steps steps).machine.environment.Meets .wellFormed :=
  steps_of_step (P := fun session => session.machine.environment.Meets .wellFormed)
    (fun _ step hm => step_meets hm step) hm steps

/-- What is performed in the course of a step is sound. -/
theorem Visits.sound {step : Step} {n : Nat} {t : Task} {m : Machine}
    (h : session.Visits step n t m) (hm : session.machine.environment.Meets .wellFormed) :
    t.Sound session.bounds m := by
  cases h with
  | eval hp h =>
    obtain ⟨ht, hm'⟩ := h.meets ⟨trivial, meets_of_parse hp⟩ hm
    exact ht.sound hm'
  | run hp h =>
    obtain ⟨ht, hm'⟩ := h.meets (meets_of_parse hp) hm
    exact ht.sound hm'

/-- Reading a program does not evaluate it. -/
theorem parse_ne_runtime (session : Session) (src : Source) (cause : RuntimeError) :
    session.parse src ≠ .error (.runtime cause) := by
  unfold parse
  cases Program.parse session.limits src <;> exact nofun

/-- A source that fails with an error of evaluation is parsed, and its program fails. -/
theorem fails_of_runWith {α : Type} {action : Program → Eval α} {cause : RuntimeError}
    (h : (session.runWith src action).1 = .error (.runtime cause)) :
    ∃ p, session.parse src = .ok p ∧ Fails (action p) session.machine (.error cause) := by
  unfold runWith at h
  -- What cannot be parsed fails with an error of the parser.
  cases hp : session.parse src with
  | error e =>
    rw [hp] at h
    obtain rfl := Except.error.inj h
    exact absurd hp (session.parse_ne_runtime src cause)
  | ok p =>
    rw [hp] at h
    unfold perform at h
    simp only at h
    -- A program that has been parsed fails with the error of its evaluation.
    cases hr : action p session.machine with
    | ok a m =>
      rw [hr] at h
      cases h
    | error stop m =>
      rw [hr] at h
      cases stop with
      | error cause' =>
        cases h
        exact ⟨p, rfl, m, hr⟩
      | exhausted => cases h

/-- A step that declares a name twice executes a statement that does. -/
theorem exists_redeclaration {step : Step} {x : String}
    (hm : session.machine.environment.Meets .wellFormed)
    (h : session.error? step = some (.runtime (.redeclared x))) :
    ∃ n s m, session.Visits step n (.statement s) m ∧ x ∈ s.declared ∧
      (Task.statement s).Raises session.bounds m (.error (.redeclared x)) := by
  cases step with
  | eval src =>
    obtain ⟨p, hp, hfails⟩ := fails_of_runWith (SessionError.of?_eq_some h)
    -- The statements of a parsed program are well-formed, and so are the functions in them.
    have ht : (Task.statements .unit p.statements).Meets .wellFormed :=
      ⟨trivial, meets_of_parse hp⟩
    obtain ⟨n, s, m, hvisits, hs⟩ := Task.exists_redeclaration ht hm (hfails.of_map.map _)
    exact ⟨n, s, m, .eval hp hvisits, hs⟩
  | run src =>
    obtain ⟨p, hp, hfails⟩ := fails_of_runWith (SessionError.of?_eq_some h)
    have ht : (Task.block p.statements).Meets .wellFormed := meets_of_parse hp
    obtain ⟨n, s, m, hvisits, hs⟩ := Task.exists_redeclaration ht hm (hfails.of_map.of_map.map _)
    exact ⟨n, s, m, .run hp hvisits, hs⟩
  | parse src => exact absurd (SessionError.of?_eq_some h) (session.parse_ne_runtime src _)

end Session

/-- Functions are well-formed. After any steps of a session, those that are bound are, and in the
course of the next step all that are bound, handed around, returned or called, so that no call fails
on the way into a function. If a name is declared twice, a `let` or `fn` statement declares it. -/
theorem function_values_wellFormed (limits : Limits) (bounds : Bounds) (out : Output)
    (steps : List Session.Step) :
    let session := (Session.start limits bounds out).steps steps
    session.machine.environment.WellFormed ∧
      (∀ step n t m, session.Visits step n t m → t.Sound session.bounds m) ∧
      ∀ step x, session.error? step = some (.runtime (.redeclared x)) →
        ∃ n s m, session.Visits step n (.statement s) m ∧ x ∈ s.declared ∧
          (Task.statement s).Raises session.bounds m (.error (.redeclared x)) := by
  intro session
  have hm : session.machine.environment.Meets .wellFormed :=
    Session.steps_meets Environment.meets_initial steps
  refine ⟨hm.wellFormed, fun step n t m hvisits => hvisits.sound hm, fun step x herror => ?_⟩
  exact Session.exists_redeclaration hm herror

/-- The parameter of a function is bound without conflict, and the body declares its name once
more. -/
theorem function_values_wellFormed_parameter :
    let session := (Session.start .standard ⟨4, 4⟩ .unlimited).steps
      [.eval (.whole (Text.bytes "fn f(a) \x7b let a = a; \x7d"))]
    ∃ n s m, session.Visits (.run (.whole (Text.bytes "f(1);"))) n (.statement s) m ∧
      "a" ∈ s.declared ∧ (Task.statement s).Raises session.bounds m (.error (.redeclared "a")) :=
  (function_values_wellFormed .standard ⟨4, 4⟩ .unlimited
    [.eval (.whole (Text.bytes "fn f(a) \x7b let a = a; \x7d"))]).2.2
    (.run (.whole (Text.bytes "f(1);"))) "a" (by decide +kernel)

end Brisk
