import Brisk.Proofs.Environment.Frame
import Brisk.Session

/-!
# What an evaluation leaves alone

However an evaluation ends, with a value, by leaving a function, with an error or for want of
rounds, it leaves the number of calls in progress as it was and the environment in the frame that
`Environment.Frame` describes. Only a declaration that is executed directly in the innermost scope
adds a name to it.

The proof is an induction that follows the evaluator. `Keeps R action` says that `action` takes
every machine to one that `R` relates it to, on every way out. For a preorder `R` it is closed under
sequencing and loops, so the trees need one short case for each constructor once calls are known to
keep the frame (`Expr.eval_keeps` and its companions). Calls then keep it by induction on how many
of them may still be nested (`Function.call_keeps`).
-/

namespace Brisk

/-- How a machine may change when the names in `fresh` may be declared in its innermost scope. -/
structure Machine.Frame (fresh : List String) (before after : Machine) : Prop where
  depth_eq : after.depth = before.depth
  environment : before.environment.Frame fresh after.environment

namespace Machine

variable {fresh : List String}

instance : IsPreorder Machine (Frame fresh) where
  refl m := ⟨rfl, refl_of (Environment.Frame fresh) m.environment⟩
  trans _ _ _ h₁ h₂ :=
    ⟨h₂.depth_eq.trans h₁.depth_eq,
      trans_of (Environment.Frame fresh) h₁.environment h₂.environment⟩

/-- More names may be allowed to be declared. -/
theorem Frame.mono {fresh' : List String} {m m' : Machine} (h : m.Frame fresh m')
    (hsub : fresh ⊆ fresh') : m.Frame fresh' m' :=
  ⟨h.depth_eq, h.environment.mono hsub⟩

end Machine

namespace Eval

/-! ## Sequencing -/

section Sequence

variable {α β : Type} {action : Eval α} {next : α → Eval β} {m m' : Machine}

/-- A sequence goes on with the result of its first evaluation. -/
theorem bind_of_ok {a : α} (h : action m = .ok a m') : (action >>= next) m = next a m' := by
  show EStateM.bind action next m = next a m'
  unfold EStateM.bind
  rw [h]

/-- A sequence ends with the error of its first evaluation. -/
theorem bind_of_error {e : Stop} (h : action m = .error e m') :
    (action >>= next) m = .error e m' := by
  show EStateM.bind action next m = .error e m'
  unfold EStateM.bind
  rw [h]

end Sequence

/-! ## Evaluations in a changed machine -/

/-- Evaluates in the machine that `enter` makes of one, and leaves the machine that `leave` makes of
the one that is left then, however the evaluation ends. -/
def within {α : Type} (enter leave : Machine → Machine) (body : Eval α) : Eval α := fun m =>
  match body (enter m) with
  | .ok a m' => .ok a (leave m')
  | .error e m' => .error e (leave m')

/-- In a scope of its own something is evaluated between opening the scope and closing it. -/
theorem inScope_eq_within {α : Type} (body : Eval α) :
    inScope body = within (fun m => { m with environment := m.environment.push })
      (fun m => { m with environment := m.environment.pop }) body := rfl

/-- The body of a call is evaluated between counting the call and counting it off. -/
theorem inCall_eq_within {α : Type} (body : Eval α) :
    inCall body = within (fun m => { m with depth := m.depth + 1 })
      (fun m => { m with depth := m.depth - 1 }) body := rfl

/-! ## Relations that evaluations keep -/

/-- The machine that an evaluation leaves, however it ends. -/
def after {α : Type} (action : Eval α) (m : Machine) : Machine :=
  match action m with
  | .ok _ m' | .error _ m' => m'

/-- Every machine is related to the one that an evaluation leaves. -/
def Keeps {α : Type} (R : Machine → Machine → Prop) (action : Eval α) : Prop :=
  ∀ m, R m (action.after m)

section Keeps

variable {α β : Type} {R : Machine → Machine → Prop}

/-- An evaluation that ends with a result keeps the relation. -/
theorem Keeps.ok {action : Eval α} (h : Keeps R action) {m m' : Machine} {a : α}
    (he : action m = .ok a m') : R m m' := by
  have hm := h m
  unfold after at hm
  rwa [he] at hm

/-- An evaluation that ends with an error keeps the relation as well. -/
theorem Keeps.error {action : Eval α} (h : Keeps R action) {m m' : Machine} {e : Stop}
    (he : action m = .error e m') : R m m' := by
  have hm := h m
  unfold after at hm
  rwa [he] at hm

/-- In a changed machine, an evaluation keeps the relation that its own becomes by the changes. -/
theorem keeps_within {S : Machine → Machine → Prop} {enter leave : Machine → Machine}
    {body : Eval α} (hleave : ∀ m m', S (enter m) m' → R m (leave m')) (h : Keeps S body) :
    Keeps R (within enter leave body) := by
  intro m
  unfold after within
  -- The machine is changed back on both ways out.
  cases hb : body (enter m) with
  | ok a m' => exact hleave m m' (h.ok hb)
  | error e m' => exact hleave m m' (h.error hb)

variable [IsPreorder Machine R]

/-- An evaluation that leaves the machine as it is keeps everything. -/
theorem keeps_of_after_eq {action : Eval α} (h : ∀ m, action.after m = m) : Keeps R action := by
  intro m
  rw [h m]
  exact refl_of R m

/-- A result leaves the machine as it is. -/
theorem keeps_pure (a : α) : Keeps R (pure a) := keeps_of_after_eq fun _ => rfl

/-- An error leaves the machine as it is. -/
theorem keeps_throw (e : Stop) : Keeps R (throw e : Eval α) := keeps_of_after_eq fun _ => rfl

/-- Using a result that may be an error does not touch the machine. -/
theorem keeps_ofExcept (r : Except RuntimeError α) : Keeps R (ofExcept r) := by
  cases r with
  | ok a => exact keeps_pure a
  | error e => exact keeps_throw _

/-- A sequence keeps what both of its evaluations keep, if that can be put one behind the other. -/
theorem keeps_bind {action : Eval α} {next : α → Eval β} (h : Keeps R action)
    (hnext : ∀ a, Keeps R (next a)) : Keeps R (action >>= next) := by
  intro m
  -- The bind of the state monad, which hands the machine of the first half to the second one.
  show R m (match EStateM.bind action next m with | .ok _ m' | .error _ m' => m')
  unfold EStateM.bind
  cases ha : action m with
  | ok a m₁ => exact trans_of R (h.ok ha) (hnext a m₁)
  | error e m₁ => exact h.error ha

/-- The test of a condition does not touch the machine. -/
theorem keeps_truth (statement : Keyword) (v : Value) : Keeps R (truth statement v) := by
  cases v with
  | bool b => exact keeps_pure b
  | unit | int | float | str | function => exact keeps_throw _

/-- Looking up a name does not touch the machine. -/
theorem keeps_lookup (name : String) : Keeps R (lookup name) := by
  refine keeps_of_after_eq fun m => ?_
  unfold after lookup
  cases m.environment.lookup name <;> rfl

/-- A loop keeps what a round of it keeps. -/
theorem keeps_repeatWhile {test : Eval Bool} {body : Eval Flow} (htest : Keeps R test)
    (hbody : Keeps R body) (rounds : Nat) : Keeps R (repeatWhile test body rounds) := by
  induction rounds with
  -- Out of rounds, the loop stops in the machine that it was handed.
  | zero => exact keeps_throw _
  | succ rounds ih =>
    unfold repeatWhile
    refine keeps_bind htest fun goesOn => ?_
    cases goesOn with
    | false => exact keeps_pure _
    | true =>
      refine keeps_bind hbody fun flow => ?_
      cases flow with
      | normal v => exact ih
      | leave v => exact keeps_pure _

end Keeps

/-! ## The frame of the basic evaluations -/

section Frame

open Machine (Frame)

variable {α : Type} {fresh : List String}

/-- An evaluation that keeps a frame keeps one that allows more. -/
theorem Keeps.mono {fresh' : List String} {action : Eval α} (h : Keeps (Frame fresh) action)
    (hsub : fresh ⊆ fresh') : Keeps (Frame fresh') action :=
  fun m => (h m).mono hsub

/-- What is evaluated in a scope of its own declares nothing outside of it. -/
theorem keeps_inScope {body : Eval α} (h : Keeps (Frame fresh) body) :
    Keeps (Frame []) (inScope body) := by
  -- The innermost scope is opened and removed again, so nothing of it remains to be allowed.
  rw [inScope_eq_within]
  exact keeps_within (fun m m' hm => ⟨hm.depth_eq, hm.environment.pop⟩) h

/-- A call is no longer in progress when it has ended. -/
theorem keeps_inCall {body : Eval α} (h : Keeps (Frame fresh) body) :
    Keeps (Frame fresh) (inCall body) := by
  rw [inCall_eq_within]
  refine keeps_within (fun m m' hm => ⟨?_, hm.environment⟩) h
  show m'.depth - 1 = m.depth
  rw [hm.depth_eq, Nat.add_sub_cancel]

/-- A declaration adds its name to the innermost scope and does nothing else. -/
theorem keeps_declare (name : String) (v : Value) (mutable : Bool) :
    Keeps (Frame [name]) (declare name v mutable) := by
  intro m
  unfold after declare
  cases hd : m.environment.declare? name v mutable with
  | none => exact refl_of (Frame [name]) m
  | some env => exact ⟨rfl, Environment.declare?_frame hd⟩

/-- An assignment stays within the frame of all names that must not be assigned to. -/
theorem keeps_assign (name : String) (v : Value) : Keeps (Frame []) (Eval.assign name v) := by
  intro m
  unfold after Eval.assign
  cases ha : m.environment.assign name v with
  | ok env => exact ⟨rfl, Environment.assign_frame ha⟩
  -- A refused assignment has not touched the environment.
  | error e => cases e <;> exact refl_of (Frame []) m

/-- Writing changes the output only, and so does a write that fails. -/
theorem keeps_writeLine (origin : Origin) (line : String) :
    Keeps (Frame []) (writeLine origin line) := by
  intro m
  unfold after writeLine
  obtain ⟨done, output⟩ := m.output.write origin (line ++ "\n")
  cases done <;> exact ⟨rfl, refl_of (Environment.Frame []) m.environment⟩

/-- Parameters are declared in the innermost scope. -/
theorem keeps_bindAll (ps : List Parameter) (vs : List Value) :
    Keeps (Frame (ps.map (·.name))) (bindAll ps vs) := by
  induction ps generalizing vs with
  -- The induction is on the parameters, and the arguments shrink along with them.
  | nil => exact keeps_pure _
  | cons p ps ih =>
    cases vs with
    | nil => exact keeps_pure _
    | cons v vs =>
      have hhead : Keeps (Frame ((p :: ps).map (·.name))) (declare p.name v p.mutable) :=
        (keeps_declare p.name v p.mutable).mono (by simp)
      exact keeps_bind hhead fun _ => (ih vs).mono (by simp)

end Frame

end Eval

/-! ## The frame of trees and calls -/

open Eval
open Machine (Frame)

/-- The names that a statement declares in the scope in which it is executed. -/
def Stmt.declared : Stmt → List String
  | .function name _ _ | .declare name _ _ => [name]
  | .loop _ _ | .conditional _ | .leave _ | .expression _ | .empty => []

section Tree

variable {call : Call} {rounds : Nat}

mutual

/-- An expression declares nothing, provided that calls declare nothing. -/
theorem Expr.eval_keeps (hcall : ∀ traced f vs, Keeps (Frame []) (call traced f vs)) :
    ∀ e : Expr, Keeps (Frame []) (e.eval call rounds)
  | .assign target value => by
    unfold Expr.eval
    refine keeps_bind (value.eval_keeps hcall) fun v => ?_
    exact keeps_bind (keeps_assign target v) fun _ => keeps_pure v
  | .binary op left right => by
    unfold Expr.eval
    refine keeps_bind (left.eval_keeps hcall) fun l => ?_
    exact keeps_bind (right.eval_keeps hcall) fun r => keeps_ofExcept _
  | .cast operand target => by
    unfold Expr.eval
    exact keeps_bind (operand.eval_keeps hcall) fun v => keeps_ofExcept _
  | .unary op operand => by
    unfold Expr.eval
    exact keeps_bind (operand.eval_keeps hcall) fun v => keeps_ofExcept _
  | .call traced callee arguments => by
    unfold Expr.eval
    refine keeps_bind (callee.eval_keeps hcall) fun v => ?_
    -- The arguments are only evaluated if there is a function to call.
    cases v with
    | function f =>
      exact keeps_bind (Expr.evalAll_keeps hcall arguments) fun vs => hcall traced f vs
    | unit | int | float | str | bool => exact keeps_throw _
  | .lambda parameters body => by
    -- A lambda is only built, and its body waits for a call.
    unfold Expr.eval
    exact keeps_pure _
  | .name name => by
    unfold Expr.eval
    exact keeps_lookup name
  | .paren inner => by
    unfold Expr.eval
    exact inner.eval_keeps hcall
  | .literal value => by
    unfold Expr.eval
    exact keeps_pure _

/-- Arguments declare nothing in the scopes that are open. -/
theorem Expr.evalAll_keeps (hcall : ∀ traced f vs, Keeps (Frame []) (call traced f vs)) :
    ∀ es : List Expr, Keeps (Frame []) (Expr.evalAll call rounds es)
  | [] => by
    unfold Expr.evalAll
    exact keeps_pure _
  | e :: es => by
    unfold Expr.evalAll
    refine keeps_bind (e.eval_keeps hcall) fun v => ?_
    exact keeps_bind (Expr.evalAll_keeps hcall es) fun vs => keeps_pure _

/-- A statement declares its own name, if it has one. -/
theorem Stmt.exec_keeps (hcall : ∀ traced f vs, Keeps (Frame []) (call traced f vs)) :
    ∀ s : Stmt, Keeps (Frame s.declared) (s.exec call rounds)
  | .function name parameters body => by
    unfold Stmt.exec
    exact keeps_bind (keeps_declare name _ false) fun _ => keeps_pure _
  | .declare name mutable value => by
    -- The value is evaluated before the name exists, so it may not use the allowance.
    unfold Stmt.exec
    have hvalue : Keeps (Frame [name]) (value.eval call rounds) :=
      (value.eval_keeps hcall).mono (by simp)
    refine keeps_bind hvalue fun v => ?_
    exact keeps_bind (keeps_declare name v mutable) fun _ => keeps_pure _
  | .loop condition body => by
    unfold Stmt.exec
    refine keeps_repeatWhile ?_ (keeps_inScope (Stmt.execAll_keeps hcall .unit body)) rounds
    exact keeps_bind (condition.eval_keeps hcall) fun v => keeps_truth _ v
  | .conditional c => by
    unfold Stmt.exec
    exact c.exec_keeps hcall
  | .leave none => by
    unfold Stmt.exec
    exact keeps_pure _
  | .leave (some value) => by
    unfold Stmt.exec
    exact keeps_bind (value.eval_keeps hcall) fun v => keeps_pure _
  | .expression e => by
    unfold Stmt.exec
    exact keeps_bind (e.eval_keeps hcall) fun v => keeps_pure _
  | .empty => by
    unfold Stmt.exec
    exact keeps_pure _

/-- Statements declare the names that they have. -/
theorem Stmt.execAll_keeps (hcall : ∀ traced f vs, Keeps (Frame []) (call traced f vs)) :
    ∀ (last : Value) (ss : List Stmt),
      Keeps (Frame (ss.flatMap Stmt.declared)) (Stmt.execAll call rounds last ss)
  | last, [] => by
    unfold Stmt.execAll
    exact keeps_pure _
  | last, s :: ss => by
    unfold Stmt.execAll
    have hhead : Keeps (Frame ((s :: ss).flatMap Stmt.declared)) (s.exec call rounds) :=
      (s.exec_keeps hcall).mono (by simp)
    refine keeps_bind hhead fun flow => ?_
    cases flow with
    | normal v => exact (Stmt.execAll_keeps hcall v ss).mono (by simp)
    | leave v => exact keeps_pure _

/-- A conditional declares nothing outside of its blocks. -/
theorem Conditional.exec_keeps (hcall : ∀ traced f vs, Keeps (Frame []) (call traced f vs)) :
    ∀ c : Conditional, Keeps (Frame []) (c.exec call rounds)
  | .mk condition body otherwise => by
    unfold Conditional.exec
    refine keeps_bind (condition.eval_keeps hcall) fun v => ?_
    refine keeps_bind (keeps_truth _ v) fun holds => ?_
    cases holds with
    | true =>
      exact keeps_bind (keeps_inScope (Stmt.execAll_keeps hcall .unit body)) fun _ => keeps_pure _
    | false => exact keeps_bind (otherwise.exec_keeps hcall) fun _ => keeps_pure _

/-- What is executed otherwise declares nothing outside of its blocks. -/
theorem Alternative.exec_keeps (hcall : ∀ traced f vs, Keeps (Frame []) (call traced f vs)) :
    ∀ a : Alternative, Keeps (Frame []) (a.exec call rounds)
  | .nothing => by
    unfold Alternative.exec
    exact keeps_pure _
  | .block body => by
    unfold Alternative.exec
    exact keeps_inScope (Stmt.execAll_keeps hcall .unit body)
  | .chain c => by
    unfold Alternative.exec
    exact c.exec_keeps hcall

end

/-- Entering a function declares nothing outside of the function. -/
theorem Function.enter_keeps (hcall : ∀ traced f vs, Keeps (Frame []) (call traced f vs))
    (f : Function) (vs : List Value) : Keeps (Frame []) (f.enter call rounds vs) := by
  cases f with
  | print =>
    unfold Function.enter
    refine keeps_bind ?_ fun _ => keeps_pure _
    -- The lines of `print` are written one after the other.
    induction vs with
    | nil => exact keeps_pure _
    | cons v vs ih => exact keeps_bind (keeps_writeLine _ _) fun _ => ih
  | user parameters body =>
    unfold Function.enter
    -- What the parameters and the body declare is gone with the scope of the call.
    have hbind := (keeps_bindAll parameters vs).mono
      (List.subset_append_left (parameters.map (·.name)) (body.flatMap Stmt.declared))
    have hbody : Keeps (Frame (parameters.map (·.name) ++ body.flatMap Stmt.declared))
        (Stmt.execAll call rounds .unit body) :=
      (Stmt.execAll_keeps hcall .unit body).mono (List.subset_append_right _ _)
    exact keeps_inScope (keeps_bind hbind fun _ => keeps_bind hbody fun _ => keeps_pure _)
  | composed first second =>
    unfold Function.enter
    -- Both halves are calls of their own, which the hypothesis covers.
    exact keeps_bind (hcall false first vs) fun v => hcall false second [v]

/-- The lines around a traced call are written and not bound. -/
theorem Function.enterTraced_keeps (hcall : ∀ traced f vs, Keeps (Frame []) (call traced f vs))
    (traced : Bool) (f : Function) (vs : List Value) :
    Keeps (Frame []) (f.enterTraced call rounds traced vs) := by
  unfold Function.enterTraced
  cases traced with
  | false => exact f.enter_keeps hcall vs
  | true =>
    refine keeps_bind (keeps_writeLine _ _) fun _ => ?_
    refine keeps_bind (f.enter_keeps hcall vs) fun result => ?_
    exact keeps_bind (keeps_writeLine _ _) fun _ => keeps_pure _

end Tree

/-- A call declares nothing outside of the function that it calls, however many calls may still be
nested. -/
theorem Function.call_keeps (bounds : Bounds) (depth : Nat) (traced : Bool) (f : Function)
    (vs : List Value) : Keeps (Frame []) (Function.call bounds depth traced f vs) := by
  -- The induction is on the calls that may still be nested.
  induction depth generalizing traced f vs with
  | zero =>
    unfold Function.call
    split
    · exact keeps_throw _
    · exact keeps_throw _
  | succ depth ih =>
    unfold Function.call
    split
    · exact keeps_inCall (f.enterTraced_keeps ih traced vs)
    · exact keeps_throw _

/-- A call keeps all scopes that are open when it is made. -/
theorem Bounds.call_keeps (bounds : Bounds) (traced : Bool) (f : Function) (vs : List Value) :
    Keeps (Frame []) (bounds.call traced f vs) :=
  fun m => Function.call_keeps bounds (bounds.callDepth - m.depth) traced f vs m

end Brisk
