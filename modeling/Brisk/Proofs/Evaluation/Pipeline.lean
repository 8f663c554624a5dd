import Brisk.Proofs.Evaluation.CallDepth
import Brisk.Proofs.Evaluation.DepthFree

/-!
# Compositions are pipelines

Functions are composed two at a time, and three or more of them can be bracketed in different ways.
However they are bracketed, calling the composition hands the argument to the first of the functions
and each result on to the next one (`bracketings_pipe`).

The halves of a composition are called inside the call of the composition, so a function that is
deeper in the brackets is called with less room for further calls. This is the only difference: a
call with less room abridges the one with more (`Function.call_abridges`), and a call does not look
at how many others are in progress (`Function.call_depthFree`). So the call of a composition
abridges the pipeline, by induction on the brackets (`Bracketing.call_abridges_pipe`).
-/

namespace Brisk

open Eval

/-! ## Pipelines -/

/-- Calls functions one after another, the first one with the given value and every other one with
what the one before it has returned. -/
def Eval.pipe (call : Call) : List Function → Value → Eval Value
  | [], v => return v
  | f :: fs, v => do
    let result ← call false f [v]
    pipe call fs result

namespace Eval

/-- A pipe of functions and further ones is the one pipe behind the other. -/
theorem pipe_append (call : Call) (fs gs : List Function) (v : Value) :
    pipe call (fs ++ gs) v = pipe call fs v >>= pipe call gs := by
  induction fs generalizing v with
  | nil =>
    rw [List.nil_append, pipe, pure_bind]
  | cons f fs ih =>
    rw [List.cons_append, pipe, pipe, bind_assoc]
    exact congrArg (call false f [v] >>= ·) (funext ih)

/-- A pipe keeps what calls keep. -/
theorem keeps_pipe {R : Machine → Machine → Prop} [IsPreorder Machine R] {call : Call}
    (hcall : ∀ traced f vs, Keeps R (call traced f vs)) (fs : List Function) (v : Value) :
    Keeps R (pipe call fs v) := by
  induction fs generalizing v with
  | nil => exact keeps_pure v
  | cons f fs ih => exact keeps_bind (hcall false f [v]) ih

/-- A pipe looks at the calls in progress only if calls do. -/
theorem depthFree_pipe {call : Call} (hcall : ∀ traced f vs, DepthFree (call traced f vs))
    (fs : List Function) (v : Value) : DepthFree (pipe call fs v) := by
  induction fs generalizing v with
  | nil => exact depthFree_pure v
  | cons f fs ih => exact depthFree_bind (hcall false f [v]) ih

/-- In a pipeline, every call leaves the next one as much room as it had. -/
theorem pipe_call (bounds : Bounds) (fs : List Function) (v : Value) (m : Machine) :
    pipe bounds.call fs v m = pipe (Function.call bounds (bounds.callDepth - m.depth)) fs v m := by
  induction fs generalizing v m with
  | nil => rfl
  -- Every function of the pipeline is called where the pipeline is, so the room stays the same.
  | cons f fs ih =>
    have hcall : bounds.call false f [v] m =
        Function.call bounds (bounds.callDepth - m.depth) false f [v] m := rfl
    rw [pipe, pipe]
    cases hr : Function.call bounds (bounds.callDepth - m.depth) false f [v] m with
    | ok result m' =>
      have hdepth := ((Function.call_keeps bounds _ false f [v]).ok hr).depth_eq
      rw [bind_of_ok hr, bind_of_ok (hcall.trans hr), ih, hdepth]
    | error e m' => rw [bind_of_error hr, bind_of_error (hcall.trans hr)]

end Eval

/-! ## Bracketings -/

/-- Functions that are to be composed, two at a time. -/
inductive Bracketing where
  | single (f : Function)
  | join (left right : Bracketing)

namespace Bracketing

/-- The functions, from the first to the last. -/
def functions : Bracketing → List Function
  | single f => [f]
  | join left right => left.functions ++ right.functions

/-- What the operator makes of the functions, or the error that it fails with. -/
def build : Bracketing → Except RuntimeError Value
  | single f => .ok (.function f)
  | join left right => do
    let l ← left.build
    let r ← right.build
    BinaryOp.compose.apply l r

/-- The function that is built if the operator does not fail. -/
def composition : Bracketing → Function
  | single f => f
  | join left right => .composed left.composition right.composition

variable {b : Bracketing}

/-- The composition of functions of one parameter has one parameter. -/
theorem composition_arity (h : ∀ f ∈ b.functions, f.arity = 1) : b.composition.arity = 1 := by
  induction b with
  | single f => exact h f (List.mem_singleton_self f)
  | join left right ihl _ =>
    -- A composition takes what its first half takes.
    exact ihl fun f hf => h f (List.mem_append_left _ hf)

/-- Every bracketing of functions of one parameter can be composed, and comes to their
composition. -/
theorem build_eq (h : ∀ f ∈ b.functions, f.arity = 1) :
    b.build = .ok (.function b.composition) := by
  induction b with
  | single f => rfl
  | join left right ihl ihr =>
    have hl : ∀ f ∈ left.functions, f.arity = 1 := fun f hf => h f (List.mem_append_left _ hf)
    have hr : ∀ f ∈ right.functions, f.arity = 1 := fun f hf => h f (List.mem_append_right _ hf)
    have hcompose : BinaryOp.compose.apply (.function left.composition)
        (.function right.composition) = .ok (.function (join left right).composition) :=
      if_pos ⟨composition_arity hl, composition_arity hr⟩
    rw [build, ihl hl, ihr hr]
    exact hcompose

/-- The call of a composition does what the pipeline does, unless more calls are to be nested than
there is room for. The pipeline may have more room. -/
theorem call_abridges_pipe (bounds : Bounds) (h : ∀ f ∈ b.functions, f.arity = 1)
    {depth depth' : Nat} (hle : depth ≤ depth') (v : Value) :
    Abridges (.shallow bounds.callDepth) (Function.call bounds depth false b.composition [v])
      (pipe (Function.call bounds depth') b.functions v) := by
  have hcut : ∀ out out', (Abridgement.shallow bounds.callDepth).same out out' →
      (Abridgement.shallow bounds.callDepth).cut (.error (.callDepthExceeded bounds.callDepth))
        out out' := by
    intro out out' hsame
    obtain rfl : out' = out := hsame
    exact ⟨rfl, refl_of Output.GrowsTo out'⟩
  -- The induction is on the bracketing, and a pair of parentheses costs one call.
  induction b generalizing depth v with
  | single f =>
    rw [functions, pipe]
    refine (bind_pure (Function.call bounds depth' false f [v])).symm ▸ ?_
    exact Function.call_abridges (Bounds.admits_shallow (Nat.le_refl _) bounds.rounds)
      (.inr ⟨hle, hcut⟩) false f [v]
  | join left right ihl ihr =>
    have harity : [v].length = (join left right).composition.arity := (composition_arity h).symm
    cases depth with
    | zero =>
      rw [Function.call, if_pos harity]
      exact abridges_of_cut (keeps_pipe (Function.call_grows bounds depth') _ v) hcut
    | succ depth =>
      have hless : depth ≤ depth' := Nat.le_of_succ_le hle
      -- Each half meets the pipeline of its own functions.
      have hhalves := abridges_bind
        (ihl (fun f hf => h f (List.mem_append_left _ hf)) hless v)
        (ihr (fun f hf => h f (List.mem_append_right _ hf)) hless)
      rw [← pipe_append] at hhalves
      -- The halves are called one call deeper, which the pipeline does not notice.
      have hpipe : inCall (pipe (Function.call bounds depth') (join left right).functions v) =
          pipe (Function.call bounds depth') (join left right).functions v :=
        funext (inCall_eq_self (depthFree_pipe (Function.call_depthFree bounds depth') _ v)
          (keeps_pipe (Function.call_keeps bounds depth') _ v))
      rw [Function.call, if_pos harity, ← hpipe]
      exact abridges_inCall (fun _ => trivial) hhalves

end Bracketing

/-! ## All bracketings -/

/-- Whether an evaluation failed because more calls were to be nested than are allowed. -/
def Bounds.outOfCalls (bounds : Bounds) : Outcome Value → Bool
  | .ok _ _ => false
  | .error e _ => e == .error (.callDepthExceeded bounds.callDepth)

/-- Calling a composition does what the pipeline does if there is room for the calls. -/
theorem Bracketing.call_eq_pipe {b : Bracketing} (bounds : Bounds)
    (h : ∀ f ∈ b.functions, f.arity = 1) {v : Value} {m : Machine}
    (hroom : bounds.outOfCalls (bounds.call false b.composition [v] m) = false) :
    bounds.call false b.composition [v] m = pipe bounds.call b.functions v m := by
  have houtcomes : (Abridgement.shallow bounds.callDepth).Outcomes
      (bounds.call false b.composition [v] m) (pipe bounds.call b.functions v m) := by
    have habridges := b.call_abridges_pipe bounds h (Nat.le_refl (bounds.callDepth - m.depth)) v
    rw [pipe_call]
    exact habridges.outcomes m m ⟨rfl, rfl, trivial, rfl⟩
  generalize bounds.call false b.composition [v] m = r,
    pipe bounds.call b.functions v m = r' at houtcomes hroom ⊢
  cases houtcomes with
  | alike halike => exact (eq_of_alike id halike).symm
  -- Running out of calls is the one thing in which the bracketings may differ.
  | cut hcut =>
    obtain ⟨rfl, -⟩ := hcut
    rw [Bounds.outOfCalls, beq_self_eq_true] at hroom
    exact absurd hroom (by decide)

/-- Functions of one parameter can be composed with any brackets, to a function of one parameter.
Calling it is calling the functions one after another, in the same environment, with the same output
and with as many calls in progress, unless more calls are to be nested than are allowed. So the
brackets do not matter as long as there is room for the calls. -/
theorem bracketings_pipe (bounds : Bounds) (functions : List Function)
    (harity : ∀ f ∈ functions, f.arity = 1) :
    (∀ b : Bracketing, b.functions = functions →
      ∃ f, b.build = .ok (.function f) ∧ f.arity = 1 ∧
        ∀ v m, bounds.outOfCalls (bounds.call false f [v] m) = false →
          bounds.call false f [v] m = pipe bounds.call functions v m) ∧
    ∀ b b' : Bracketing, b.functions = functions → b'.functions = functions →
      ∀ f f', b.build = .ok (.function f) → b'.build = .ok (.function f') →
        ∀ v m, bounds.outOfCalls (bounds.call false f [v] m) = false →
          bounds.outOfCalls (bounds.call false f' [v] m) = false →
          bounds.call false f [v] m = bounds.call false f' [v] m := by
  have hpipes : ∀ b : Bracketing, b.functions = functions →
      ∃ f, b.build = .ok (.function f) ∧ f.arity = 1 ∧
        ∀ v m, bounds.outOfCalls (bounds.call false f [v] m) = false →
          bounds.call false f [v] m = pipe bounds.call functions v m := by
    rintro b rfl
    exact ⟨b.composition, Bracketing.build_eq harity, Bracketing.composition_arity harity,
      fun v m hroom => Bracketing.call_eq_pipe bounds harity hroom⟩
  refine ⟨hpipes, fun b b' hb hb' f f' hf hf' v m hroom hroom' => ?_⟩
  obtain ⟨g, hg, -, hpipe⟩ := hpipes b hb
  obtain ⟨g', hg', -, hpipe'⟩ := hpipes b' hb'
  -- A bracketing builds one function only, so these are the ones that are called.
  obtain rfl : g = f := by
    rw [hg] at hf
    cases hf
    rfl
  obtain rfl : g' = f' := by
    rw [hg'] at hf'
    cases hf'
    rfl
  rw [hpipe v m hroom, hpipe' v m hroom']

/-- Doubling, adding one and printing, with brackets on the left and on the right. -/
theorem bracketings_pipe_doubling :
    let double : Function := .user [⟨"x", false⟩]
      [.leave (some (.binary .multiply (.name "x") (.literal (.int 2))))]
    let increment : Function := .user [⟨"x", false⟩]
      [.leave (some (.binary .add (.name "x") (.literal (.int 1))))]
    let functions : List Function := [double, increment, .print]
    let left : Bracketing := .join (.join (.single double) (.single increment)) (.single .print)
    let right : Bracketing := .join (.single double) (.join (.single increment) (.single .print))
    let bounds : Bounds := ⟨3, 1⟩
    let m : Machine := ⟨.initial, .unlimited, 0⟩
    (∀ f ∈ functions, f.arity = 1) ∧
      bounds.outOfCalls (bounds.call false left.composition [.int 3] m) = false ∧
      bounds.outOfCalls (bounds.call false right.composition [.int 3] m) = false ∧
      bounds.call false left.composition [.int 3] m =
        bounds.call false right.composition [.int 3] m := by
  intro double increment functions left right bounds m
  have harity : ∀ f ∈ functions, f.arity = 1 := by
    intro f hf
    simp only [functions, List.mem_cons, List.not_mem_nil, or_false] at hf
    obtain rfl | rfl | rfl := hf <;> rfl
  have hleft : bounds.outOfCalls (bounds.call false left.composition [.int 3] m) = false := by
    decide +kernel
  have hright : bounds.outOfCalls (bounds.call false right.composition [.int 3] m) = false := by
    decide +kernel
  refine ⟨harity, hleft, hright, ?_⟩
  obtain ⟨-, hagree⟩ := bracketings_pipe bounds functions harity
  exact hagree left right rfl rfl _ _ (Bracketing.build_eq harity) (Bracketing.build_eq harity)
    (.int 3) m hleft hright

end Brisk
