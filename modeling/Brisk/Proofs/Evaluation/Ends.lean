import Brisk.Proofs.Evaluation.Abridged

/-!
# Evaluations that end

Loops are given a number of rounds, and running out of them is an outcome that only an evaluation
has which would go on. So an evaluation ends with an outcome if it comes to it with some number of
rounds, and not for want of rounds (`Eval.Ends`). With more rounds it comes to the same outcome,
since an evaluation abridges the one that is given more rounds. So there is at most one outcome with
which an evaluation ends (`Eval.Ends.unique`).
-/

namespace Brisk

open Eval

namespace Eval

variable {α : Type}

/-- Whether there is a value or an error, and not an end for want of rounds. -/
def Outcome.Finished : Outcome α → Prop
  | .ok _ _ | .error (.error _) _ => True
  | .error .exhausted _ => False

/-- With enough rounds, an evaluation comes to an outcome in a machine. -/
def Ends (action : Nat → Eval α) (m : Machine) (r : Outcome α) : Prop :=
  r.Finished ∧ ∃ rounds, action rounds m = r

end Eval

/-- Both evaluations do the same, but the first may run out of rounds. -/
def Abridgement.hurried : Abridgement where
  depths _ := True
  same out out' := out' = out
  cut e _ _ := e = .exhausted
  cut_of_growsTo h _ := h

namespace Eval

variable {α : Type} {action : Nat → Eval α} {m : Machine} {r r' : Outcome α}

/-- Evaluations that may be given more rounds without coming to another outcome. -/
def Steady (action : Nat → Eval α) : Prop :=
  ∀ rounds rounds', rounds ≤ rounds' → Abridges .hurried (action rounds) (action rounds')

/-- An evaluation that did not run out of rounds needs no more of them. -/
theorem Steady.eq_of_le (h : Steady action) {rounds rounds' : Nat} (hle : rounds ≤ rounds')
    (hfinished : Outcome.Finished (action rounds m)) : action rounds' m = action rounds m := by
  have houtcomes := (h rounds rounds' hle).outcomes m m ⟨rfl, rfl, trivial, rfl⟩
  generalize action rounds m = r, action rounds' m = r' at houtcomes hfinished
  cases houtcomes with
  | alike halike => exact eq_of_alike id halike
  | cut hcut =>
    obtain rfl := hcut
    exact hfinished.elim

/-- There is at most one outcome with which an evaluation ends. -/
theorem Ends.unique (hsteady : Steady action) (h : Ends action m r) (h' : Ends action m r') :
    r = r' := by
  obtain ⟨hfinished, rounds, rfl⟩ := h
  obtain ⟨hfinished', rounds', rfl⟩ := h'
  obtain hle | hle := Nat.le_total rounds rounds'
  · exact (hsteady.eq_of_le hle hfinished).symm
  · exact hsteady.eq_of_le hle hfinished'

end Eval

namespace Bounds

/-- With fewer rounds, running out of them is the only way to be stopped. -/
theorem admits_hurried (callDepth : Nat) {rounds rounds' : Nat} (hle : rounds ≤ rounds') :
    Abridgement.hurried.Admits ⟨callDepth, rounds⟩ ⟨callDepth, rounds'⟩ where
  depths _ := trivial
  writes := Abridgement.writes_of_same_eq rfl
  rounds := .inr ⟨hle, fun _ _ _ => rfl⟩
  calls := .inl rfl

/-- A program may be given more rounds without coming to another outcome. -/
theorem steady_run (callDepth : Nat) (p : Program) :
    Steady fun rounds => (Bounds.mk callDepth rounds).run p :=
  fun _ _ hle => run_abridges (admits_hurried callDepth hle) p

/-- A program in a session may be given more rounds without coming to another outcome. -/
theorem steady_runInSession (callDepth : Nat) (p : Program) :
    Steady fun rounds => (Bounds.mk callDepth rounds).runInSession p :=
  fun _ _ hle => runInSession_abridges (admits_hurried callDepth hle) p

end Bounds

end Brisk
