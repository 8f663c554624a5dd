import Brisk.Proofs.Evaluation.Parts

/-!
# What a return ends

A return inside blocks, conditionals and loops ends all of them, up to the function or the program
around them. `Task.Returns` says for each kind of task what it means that it is ended by a return
with a given value. A task is ended if one of its parts is (`Part.returns`), so everything is ended
that a return is executed on behalf of without a call in between (`Task.Visits.returns`). What is
left is the machine behind the return, with the scopes closed that were opened on the way: nothing
else has been executed.
-/

namespace Brisk

open Eval

/-- A machine in which a number of scopes have been closed. -/
def Machine.close (n : Nat) (m : Machine) : Machine :=
  { m with environment := ⟨m.environment.scopes.drop n⟩ }

/-- Scopes can be closed in two goes. -/
theorem Machine.close_close (k n : Nat) (m : Machine) : (m.close k).close n = m.close (k + n) := by
  unfold close
  rw [List.drop_drop]

/-- A scope of its own is closed behind a result. -/
theorem Eval.inScope_of_ok {α : Type} {body : Eval α} {a : α} {m m' : Machine}
    (h : body { m with environment := m.environment.push } = .ok a m') :
    inScope body m = .ok a (m'.close 1) := by
  unfold inScope Machine.close
  rw [h, List.drop_one]
  rfl

/-- Whether a task is ended by a return with a given value. Expressions and calls are not: a
function's body is, and the call of the function goes on with its value. -/
def Task.Returns (bounds : Bounds) (m : Machine) (v : Value) (m' : Machine) : Task → Prop
  | .statement s => bounds.statement s m = .ok (.leave v) m'
  | .statements last ss => Stmt.execAll bounds.call bounds.rounds last ss m = .ok (.leave v) m'
  | .block ss => bounds.block ss m = .ok (.leave v) m'
  | .conditional c => c.exec bounds.call bounds.rounds m = .ok (.leave v) m'
  | .alternative a => a.exec bounds.call bounds.rounds m = .ok (.leave v) m'
  | .loop rounds condition ss =>
    repeatWhile (do truth .whileKey (← bounds.expression condition)) (bounds.block ss) rounds m =
      .ok (.leave v) m'
  | .body f vs => f.enter bounds.call bounds.rounds vs m = .ok v m'
  | .expression _ | .expressions _ | .call _ _ _ => False

section Returns

variable {bounds : Bounds} {t t' : Task} {m m' m'' : Machine} {v : Value}

/-- The test of a loop has the truth value of its condition. -/
theorem Eval.test_of_ok {condition : Expr} {b : Bool}
    (h : bounds.expression condition m = .ok (.bool b) m') (statement : Keyword) :
    (do truth statement (← bounds.expression condition) : Eval Bool) m = .ok b m' :=
  bind_of_ok h

/-- What ends a part ends the whole, if the part is executed without a call. -/
theorem Part.returns (h : Part bounds t m t' m') (hcalls : t'.calls = 0)
    (hreturns : t'.Returns bounds m' v m'') : ∃ n, t.Returns bounds m v (m''.close n) := by
  cases h with
  -- Parts that end with a value cannot end with a `return`.
  | assigned | left | right | casted | operand | inner | callee | arguments | call | head | tail
  | declared | returned | expression | condition | test | firstHalf | secondHalf =>
    exact hreturns.elim
  | body => exact absurd hcalls Nat.one_ne_zero
  | loop =>
    refine ⟨0, ?_⟩
    show Stmt.exec _ _ _ _ = _
    rw [Stmt.exec]
    exact hreturns
  | conditional =>
    refine ⟨0, ?_⟩
    show Stmt.exec _ _ _ _ = _
    rw [Stmt.exec]
    exact hreturns
  | first =>
    refine ⟨0, ?_⟩
    show Stmt.execAll _ _ _ _ _ = _
    rw [Stmt.execAll]
    exact bind_of_ok hreturns
  | rest h =>
    refine ⟨0, ?_⟩
    show Stmt.execAll _ _ _ _ _ = _
    rw [Stmt.execAll]
    exact (bind_of_ok h).trans hreturns
  -- A block closes its scope when the `return` leaves it.
  | inBlock => exact ⟨1, inScope_of_ok hreturns⟩
  | holds h =>
    refine ⟨0, ?_⟩
    show Conditional.exec _ _ _ _ = _
    rw [Conditional.exec]
    refine (bind_of_ok h).trans ((bind_of_ok rfl).trans ?_)
    exact bind_of_ok hreturns
  | fails h =>
    refine ⟨0, ?_⟩
    show Conditional.exec _ _ _ _ = _
    rw [Conditional.exec]
    refine (bind_of_ok h).trans ((bind_of_ok rfl).trans ?_)
    exact bind_of_ok hreturns
  | otherwise =>
    refine ⟨0, ?_⟩
    show Alternative.exec _ _ _ _ = _
    rw [Alternative.exec]
    exact hreturns
  | chain =>
    refine ⟨0, ?_⟩
    show Alternative.exec _ _ _ _ = _
    rw [Alternative.exec]
    exact hreturns
  -- The test has let the round begin, and the round is left in the middle.
  | round h =>
    refine ⟨0, ?_⟩
    show repeatWhile _ _ _ _ = _
    unfold repeatWhile
    exact (bind_of_ok (test_of_ok h _)).trans (bind_of_ok hreturns)
  | again h h' =>
    refine ⟨0, ?_⟩
    show repeatWhile _ _ _ _ = _
    unfold repeatWhile
    exact (bind_of_ok (test_of_ok h _)).trans ((bind_of_ok h').trans hreturns)
  -- The scope of the call is closed along with those of the blocks in it.
  | user h =>
    refine ⟨1, ?_⟩
    show Function.enter _ _ _ _ _ = _
    rw [Function.enter]
    exact inScope_of_ok ((bind_of_ok h).trans (bind_of_ok hreturns))

/-- A return ends everything that it is executed on behalf of without a call in between. -/
theorem Task.Visits.returns {n : Nat} (h : t.Visits bounds m n t' m') (hn : n = 0)
    (hreturns : t'.Returns bounds m' v m'') : ∃ k, t.Returns bounds m v (m''.close k) := by
  induction h generalizing v m'' with
  | start => exact ⟨0, hreturns⟩
  | part h hpart ih =>
    rw [Nat.add_eq_zero_iff] at hn
    obtain ⟨k, hk⟩ := hpart.returns hn.2 hreturns
    obtain ⟨l, hl⟩ := ih hn.1 hk
    rw [Machine.close_close] at hl
    exact ⟨_, hl⟩

end Returns

end Brisk
