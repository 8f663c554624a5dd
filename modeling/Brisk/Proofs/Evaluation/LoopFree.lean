import Brisk.Proofs.Evaluation.Demand

/-!
# Programs without loops

A program without loops ends, and so does whatever it calls, if there are no loops in the functions
that are bound when it starts. It may call itself, apply functions to themselves, hand them around
and compose them: the bound on nested calls ends all of this with an error, and functions that are
made on the way have no loops either (`only_loops_diverge`).

What an evaluation is given rounds for are its loops. So the outcome is the same for any number of
rounds, and none among them.
-/

namespace Brisk

open Eval

namespace Eval

/-- However many rounds it is given, an evaluation comes to one and the same value or error. The
value and the functions in the environment that is left meet a demand. -/
def EndsMeeting (d : Demand) (action : Nat → Eval Value) (m : Machine) : Prop :=
  ∃ r : Outcome Value, r.Finished ∧ (∀ rounds, action rounds m = r) ∧
    (∀ v m', r = .ok v m' → v.Meets d) ∧ r.machine.environment.Meets d

/-- If there are no loops, an evaluation does not need any rounds. -/
theorem endsMeeting_of_yields {action : Nat → Eval Value} {m : Machine} (hsteady : Steady action)
    (h : Yields .loopFree (Value.Meets .loopFree) (action 0))
    (hm : m.environment.Meets .loopFree) : EndsMeeting .loopFree action m := by
  have hfinished : Outcome.Finished (action 0 m) := by
    cases hr : action 0 m with
    | ok v m' => exact trivial
    | error e m' =>
      -- Only where there may be loops is an evaluation stopped for want of rounds.
      cases e with
      | error cause => exact trivial
      | exhausted => exact (h.error hm hr).1 rfl
  refine ⟨action 0 m, hfinished, fun rounds => ?_, fun v m' hv => (h.ok hm hv).1, ?_⟩
  · exact hsteady.eq_of_le (Nat.zero_le rounds) hfinished
  · cases hr : action 0 m with
    | ok v m' => exact (h.ok hm hr).2
    | error e m' => exact (h.error hm hr).2

end Eval

/-- Only loops diverge. A program without loops, in the functions that it writes down as well, ends
with a value or an error in every environment that binds no functions with loops. The functions that
it leaves in the environment have no loops either. -/
theorem only_loops_diverge (callDepth : Nat) {p : Program} (hp : p.Meets .loopFree) {m : Machine}
    (hm : m.environment.Meets .loopFree) :
    EndsMeeting .loopFree (fun rounds => (Bounds.mk callDepth rounds).run p) m ∧
      EndsMeeting .loopFree (fun rounds => (Bounds.mk callDepth rounds).runInSession p) m := by
  constructor
  · exact endsMeeting_of_yields (Bounds.steady_run callDepth p) (Bounds.run_yields _ hp) hm
  · exact endsMeeting_of_yields (Bounds.steady_runInSession callDepth p)
      (Bounds.runInSession_yields _ hp) hm

/-- A function that is applied to itself and applies what it is given to itself. -/
theorem only_loops_diverge_selfApplication :
    let p : Program := ⟨[.declare "f" false (.lambda [⟨"x", false⟩]
        [.expression (.call false (.name "x") [.name "x"])]),
      .expression (.call false (.name "f") [.name "f"])]⟩
    p.Meets .loopFree ∧ Environment.initial.Meets .loopFree ∧
      ∃ m' : Machine, m'.environment.Meets .loopFree ∧
        ∀ rounds, (Bounds.mk 3 rounds).runInSession p ⟨.initial, .unlimited, 0⟩ =
          .error (.error (.callDepthExceeded 3)) m' := by
  intro p
  have hp : p.Meets .loopFree := by
    simp [p, Program.Meets, Stmt.AllMeet, Stmt.Meets, Expr.Meets, Expr.AllMeet, Demand.loopFree]
  have hm : Environment.initial.Meets .loopFree := Environment.meets_initial
  -- The calls stop the recursion, so no round is needed and the result can be computed.
  obtain ⟨m', hrun⟩ : ∃ m', (Bounds.mk 3 0).runInSession p ⟨.initial, .unlimited, 0⟩ =
      .error (.error (.callDepthExceeded 3)) m' := ⟨_, rfl⟩
  obtain ⟨-, r, -, hr, -, hleft⟩ := only_loops_diverge 3 hp (m := ⟨.initial, .unlimited, 0⟩) hm
  obtain rfl := (hr 0).symm.trans hrun
  exact ⟨hp, hm, m', hleft, hr⟩

end Brisk
