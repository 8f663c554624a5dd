import Brisk.Proofs.Evaluation.InStep

/-!
# Evaluations that are cut short

Two evaluations of one tree may have different calls, give loops different numbers of rounds, or
write to different outputs. The first abridges the second if both do the same, except that the first
may be stopped with an error where the second goes on.

An `Abridgement` says which machines count as the same, and how the output of an evaluation that was
stopped compares to the one that went on. The second must not be able to undo this: whatever it
writes later comes behind what it has written before (`Output.GrowsTo`). So `Abridges` asks of the
second evaluation that it only adds to its output, which makes it closed under sequencing.

Trees then need one short case for each constructor, for any two ways of calling functions of which
one abridges the other (`Expr.eval_abridges` and its companions). Calls follow by induction on how
many of them may still be nested, where running out of nested calls and running out of rounds are
the two ways of being stopped that do not come from the output (`Function.call_abridges`).
-/

namespace Brisk

/-! ## Outputs that grow -/

/-- What has been written stays, and more may have been written behind it. -/
def Output.GrowsTo (before after : Output) : Prop :=
  before.written.toList <+: after.written.toList

namespace Output

instance : IsPreorder Output GrowsTo where
  refl out := List.prefix_refl out.written.toList
  trans _ _ _ h₁ h₂ := List.IsPrefix.trans h₁ h₂

/-- A write adds a chunk, even if it fails. -/
theorem growsTo_write (out : Output) (origin : Origin) (text : String) :
    out.GrowsTo (out.write origin text).2 := by
  unfold GrowsTo write
  cases out.room with
  | none => simp
  | some room =>
    by_cases h : (Text.bytes text).length ≤ room
    · simp [h]
    · simp [h]

/-- The bytes that have been written stay as well. -/
theorem GrowsTo.bytes_prefix {out out' : Output} (h : out.GrowsTo out') :
    out.bytes <+: out'.bytes := by
  obtain ⟨chunks, hchunks⟩ := h
  refine ⟨chunks.flatMap (·.bytes), ?_⟩
  unfold bytes
  rw [← hchunks, List.flatMap_append]

end Output

/-- What has been written in a machine stays. -/
def Machine.GrowsTo (before after : Machine) : Prop := before.output.GrowsTo after.output

instance : IsPreorder Machine Machine.GrowsTo where
  refl m := refl_of Output.GrowsTo m.output
  trans _ _ _ h₁ h₂ := trans_of Output.GrowsTo h₁ h₂

namespace Eval

open Machine (GrowsTo)

variable {α : Type}

/-- What an evaluation comes to, with the machine that it leaves. -/
abbrev Outcome (α : Type) := EStateM.Result Stop Machine α

/-- The machine that is left, whether there is a result or an error. -/
def Outcome.machine : Outcome α → Machine
  | .ok _ m | .error _ m => m

/-- Opening and closing a scope does not write. -/
theorem grows_inScope {body : Eval α} (h : Keeps GrowsTo body) : Keeps GrowsTo (inScope body) := by
  rw [inScope_eq_within]
  exact keeps_within (fun _ _ hm => hm) h

/-- Counting calls does not write. -/
theorem grows_inCall {body : Eval α} (h : Keeps GrowsTo body) : Keeps GrowsTo (inCall body) := by
  rw [inCall_eq_within]
  exact keeps_within (fun _ _ hm => hm) h

/-- Declaring a name does not write. -/
theorem grows_declare (name : String) (v : Value) (mutable : Bool) :
    Keeps GrowsTo (declare name v mutable) := by
  intro m
  unfold after declare
  cases m.environment.declare? name v mutable with
  | some env => exact refl_of Output.GrowsTo m.output
  | none => exact refl_of Output.GrowsTo m.output

/-- Assigning to a name does not write. -/
theorem grows_assign (name : String) (v : Value) : Keeps GrowsTo (Eval.assign name v) := by
  intro m
  unfold after Eval.assign
  cases m.environment.assign name v with
  | ok env => exact refl_of Output.GrowsTo m.output
  | error e => cases e <;> exact refl_of Output.GrowsTo m.output

/-- Writing a line adds it to the output, or nothing if there is no room. -/
theorem grows_writeLine (origin : Origin) (line : String) :
    Keeps GrowsTo (writeLine origin line) := by
  intro m
  have hwrite := m.output.growsTo_write origin (line ++ "\n")
  unfold after writeLine
  generalize m.output.write origin (line ++ "\n") = w at hwrite
  obtain ⟨done, output⟩ := w
  cases done <;> exact hwrite

end Eval

/-! ## Abridgements -/

/-- How two evaluations are compared of which the first may be stopped: the numbers of calls in
progress for which they are, which outputs count as the same, and how the outputs compare when the
first evaluation was stopped with an error. Nothing that is written later changes that. -/
structure Abridgement where
  depths : Nat → Prop
  same : Output → Output → Prop
  cut : Stop → Output → Output → Prop
  cut_of_growsTo : ∀ {e out out' later}, cut e out out' → out'.GrowsTo later → cut e out later

namespace Abridgement

/-- Machines that differ in outputs only, which count as the same. -/
structure Level (K : Abridgement) (m m' : Machine) : Prop where
  environment_eq : m'.environment = m.environment
  depth_eq : m'.depth = m.depth
  depth : K.depths m.depth
  output : K.same m.output m'.output

/-- Outcomes are alike, or the first evaluation was stopped. -/
inductive Outcomes (K : Abridgement) {α : Type} : Eval.Outcome α → Eval.Outcome α → Prop where
  | alike {r r' : Eval.Outcome α} (h : Eval.Alike K.Level id r r') : Outcomes K r r'
  | cut {e : Stop} {m : Machine} {r' : Eval.Outcome α} (h : K.cut e m.output r'.machine.output) :
      Outcomes K (.error e m) r'

/-- Fewer rounds are like more if they are as many, or if an evaluation may be stopped for want of
rounds. -/
def Rounds (K : Abridgement) (rounds rounds' : Nat) : Prop :=
  rounds = rounds' ∨
    rounds ≤ rounds' ∧ ∀ out out', K.same out out' → K.cut .exhausted out out'

/-- Every write has the same outcome in both outputs, or fails in the first and stops the first
evaluation. -/
def Writes (K : Abridgement) : Prop :=
  ∀ out out', K.same out out' → ∀ origin text,
    ((out'.write origin text).1 = (out.write origin text).1 ∧
      K.same (out.write origin text).2 (out'.write origin text).2) ∨
    ((out.write origin text).1 = false ∧
      K.cut (.error (.io Output.fullReason)) (out.write origin text).2 (out'.write origin text).2)

end Abridgement

namespace Eval

variable {α β : Type} {K : Abridgement}

/-- The first evaluation does what the second does, unless it is stopped, and the second only adds
to its output. -/
structure Abridges (K : Abridgement) (action action' : Eval α) : Prop where
  outcomes : ∀ m m', K.Level m m' → K.Outcomes (action m) (action' m')
  grows : Keeps Machine.GrowsTo action'

/-- Machines on one level are the same if their outputs are. -/
theorem eq_of_level (hsame : ∀ {out out'}, K.same out out' → out' = out) {m m' : Machine}
    (h : K.Level m m') : m' = m := by
  obtain ⟨env, out, depth⟩ := m
  obtain ⟨env', out', depth'⟩ := m'
  obtain rfl : env' = env := h.environment_eq
  obtain rfl : out' = out := hsame h.output
  obtain rfl : depth' = depth := h.depth_eq
  rfl

/-- Alike outcomes are the same if outputs on one level are. -/
theorem eq_of_alike (hsame : ∀ {out out'}, K.same out out' → out' = out) {r r' : Outcome α}
    (h : Alike K.Level id r r') : r' = r := by
  cases h with
  | ok h => rw [eq_of_level hsame h, id]
  | error h => rw [eq_of_level hsame h]

/-! ## Sequencing and loops -/

/-- A result abridges itself. -/
theorem abridges_pure (a : α) : Abridges K (pure a) (pure a) where
  outcomes _ _ hm := .alike (.ok hm)
  grows := keeps_pure a

/-- An error abridges itself. -/
theorem abridges_throw (e : Stop) : Abridges K (throw e : Eval α) (throw e) where
  outcomes _ _ hm := .alike (.error hm)
  grows := keeps_throw e

/-- A result that may be an error abridges itself. -/
theorem abridges_ofExcept (r : Except RuntimeError α) : Abridges K (ofExcept r) (ofExcept r) := by
  cases r with
  | ok a => exact abridges_pure a
  | error e => exact abridges_throw _

/-- An evaluation that is stopped at once abridges every one that only adds to its output. -/
theorem abridges_of_cut {e : Stop} {action' : Eval α} (h : Keeps Machine.GrowsTo action')
    (hcut : ∀ out out', K.same out out' → K.cut e out out') : Abridges K (throw e) action' where
  outcomes _ m' hm := .cut (K.cut_of_growsTo (hcut _ _ hm.output) (h m'))
  grows := h

/-- A sequence abridges another one if its parts do. When the first part is stopped, the second
sequence goes on and only adds to its output, which the comparison allows. -/
theorem abridges_bind {action action' : Eval α} {next next' : α → Eval β}
    (h : Abridges K action action') (hnext : ∀ a, Abridges K (next a) (next' a)) :
    Abridges K (action >>= next) (action' >>= next') where
  outcomes m m' hm := by
    have houtcomes := h.outcomes m m' hm
    generalize hr : action m = r, hr' : action' m' = r' at houtcomes
    -- As long as the first half goes alike, the second half starts in alike machines.
    cases houtcomes with
    | alike halike =>
      cases halike with
      | ok hlevel =>
        rw [bind_of_ok hr, bind_of_ok hr']
        exact (hnext _).outcomes _ _ hlevel
      | error hlevel =>
        rw [bind_of_error hr, bind_of_error hr']
        exact .alike (.error hlevel)
    | cut hcut =>
      rw [bind_of_error hr]
      -- The second evaluation goes on, and what it adds does not matter.
      cases r' with
      | ok a m₁' =>
        rw [bind_of_ok hr']
        exact .cut (K.cut_of_growsTo hcut ((hnext a).grows m₁'))
      | error e' m₁' =>
        rw [bind_of_error hr']
        exact .cut hcut
  grows := keeps_bind h.grows fun a => (hnext a).grows

/-- The test of a condition abridges itself. -/
theorem abridges_truth (statement : Keyword) (v : Value) :
    Abridges K (truth statement v) (truth statement v) := by
  cases v with
  | bool b => exact abridges_pure b
  | unit | int | float | str | function => exact abridges_throw _

/-- A loop abridges another if its rounds do and there are not more of them. -/
theorem abridges_repeatWhile {test test' : Eval Bool} {body body' : Eval Flow}
    (htest : Abridges K test test') (hbody : Abridges K body body') {rounds rounds' : Nat}
    (hrounds : K.Rounds rounds rounds') :
    Abridges K (repeatWhile test body rounds) (repeatWhile test' body' rounds') := by
  induction rounds generalizing rounds' with
  | zero =>
    have hgrows := keeps_repeatWhile htest.grows hbody.grows rounds'
    -- Without rounds the first loop stops at once, and the second one may go on.
    obtain rfl | ⟨-, hcut⟩ := hrounds
    · exact abridges_throw _
    · exact abridges_of_cut hgrows hcut
  | succ rounds ih =>
    obtain ⟨n, rfl⟩ : ∃ n, rounds' = n + 1 := by
      obtain rfl | ⟨hle, -⟩ := hrounds
      · exact ⟨rounds, rfl⟩
      · exact ⟨rounds' - 1, by omega⟩
    have hfewer : K.Rounds rounds n := by
      obtain h | ⟨hle, hcut⟩ := hrounds
      · exact .inl (by omega)
      · exact .inr ⟨by omega, hcut⟩
    unfold repeatWhile
    refine abridges_bind htest fun goesOn => ?_
    cases goesOn with
    | false => exact abridges_pure _
    | true =>
      refine abridges_bind hbody fun flow => ?_
      cases flow with
      | normal v => exact ih hfewer
      | leave v => exact abridges_pure _

/-! ## Basic evaluations -/

/-- Changing both machines back does not change how outcomes compare, if machines on one level stay
so and no change writes. -/
theorem outcomes_within {enter leave : Machine → Machine} {body body' : Eval α} {m m' : Machine}
    (hleave : ∀ m m', K.Level m m' → K.Level (leave m) (leave m'))
    (houtput : ∀ m, (leave m).output = m.output)
    (h : K.Outcomes (body (enter m)) (body' (enter m'))) :
    K.Outcomes (within enter leave body m) (within enter leave body' m') := by
  unfold within
  generalize body (enter m) = r, body' (enter m') = r' at h
  cases h with
  | alike halike =>
    cases halike with
    | ok hl => exact .alike (.ok (hleave _ _ hl))
    | error hl => exact .alike (.error (hleave _ _ hl))
  | @cut e m₁ r' hcut =>
    -- What was stopped is compared by its output, which is still there.
    cases r' with
    | ok a m₁' =>
      refine .cut ?_
      rwa [houtput, Outcome.machine, houtput]
    | error e' m₁' =>
      refine .cut ?_
      rwa [houtput, Outcome.machine, houtput]

/-- In scopes of their own, an evaluation abridges what it abridges in the scope that is opened. -/
theorem abridges_inScope {body body' : Eval α} (h : Abridges K body body') :
    Abridges K (inScope body) (inScope body') where
  outcomes m m' hm := by
    rw [inScope_eq_within, inScope_eq_within]
    refine outcomes_within (fun m m' hm => ?_) (fun _ => rfl) (h.outcomes _ _ ?_)
    · exact ⟨congrArg Environment.pop hm.environment_eq, hm.depth_eq, hm.depth, hm.output⟩
    · exact ⟨congrArg Environment.push hm.environment_eq, hm.depth_eq, hm.depth, hm.output⟩
  grows := grows_inScope h.grows

/-- Calls are compared for all numbers of calls in progress. -/
theorem abridges_inCall (hdepths : ∀ depth, K.depths depth) {body body' : Eval α}
    (h : Abridges K body body') : Abridges K (inCall body) (inCall body') where
  outcomes m m' hm := by
    rw [inCall_eq_within, inCall_eq_within]
    refine outcomes_within (fun m m' hm => ?_) (fun _ => rfl) (h.outcomes _ _ ?_)
    · exact ⟨hm.environment_eq, congrArg (· - 1) hm.depth_eq, hdepths _, hm.output⟩
    · exact ⟨hm.environment_eq, congrArg (· + 1) hm.depth_eq, hdepths _, hm.output⟩
  grows := grows_inCall h.grows

/-- Looking up a name abridges itself. -/
theorem abridges_lookup (name : String) : Abridges K (lookup name) (lookup name) where
  outcomes m m' hm := by
    unfold lookup
    rw [hm.environment_eq]
    cases m.environment.lookup name with
    | some v => exact .alike (.ok hm)
    | none => exact .alike (.error hm)
  grows := keeps_lookup name

/-- A declaration abridges itself. -/
theorem abridges_declare (name : String) (v : Value) (mutable : Bool) :
    Abridges K (declare name v mutable) (declare name v mutable) where
  outcomes m m' hm := by
    unfold declare
    rw [hm.environment_eq]
    cases m.environment.declare? name v mutable with
    | some env => exact .alike (.ok ⟨rfl, hm.depth_eq, hm.depth, hm.output⟩)
    | none => exact .alike (.error hm)
  grows := grows_declare name v mutable

/-- An assignment abridges itself. -/
theorem abridges_assign (name : String) (v : Value) :
    Abridges K (Eval.assign name v) (Eval.assign name v) where
  outcomes m m' hm := by
    unfold Eval.assign
    rw [hm.environment_eq]
    cases m.environment.assign name v with
    | ok env => exact .alike (.ok ⟨rfl, hm.depth_eq, hm.depth, hm.output⟩)
    | error e => cases e <;> exact .alike (.error hm)
  grows := grows_assign name v

/-- Binding parameters abridges itself. -/
theorem abridges_bindAll (ps : List Parameter) (vs : List Value) :
    Abridges K (bindAll ps vs) (bindAll ps vs) := by
  induction ps generalizing vs with
  | nil => exact abridges_pure ()
  | cons p ps ih =>
    cases vs with
    | nil => exact abridges_pure ()
    | cons v vs => exact abridges_bind (abridges_declare p.name v p.mutable) fun _ => ih vs

/-- Writing abridges itself if it stops the first evaluation wherever it has another outcome
there. -/
theorem abridges_writeLine (hwrites : K.Writes) (origin : Origin) (line : String) :
    Abridges K (writeLine origin line) (writeLine origin line) where
  outcomes m m' hm := by
    have hwrite := hwrites _ _ hm.output origin (line ++ "\n")
    unfold writeLine
    -- Both writes are named before they are told apart, as the relation speaks of the pair.
    generalize m.output.write origin (line ++ "\n") = w,
      m'.output.write origin (line ++ "\n") = w' at hwrite
    obtain ⟨done, output⟩ := w
    obtain ⟨done', output'⟩ := w'
    obtain ⟨hdone, hsame⟩ | ⟨hfails, hcut⟩ := hwrite
    · obtain rfl : done' = done := hdone
      cases done' with
      | true => exact .alike (.ok ⟨hm.environment_eq, hm.depth_eq, hm.depth, hsame⟩)
      | false => exact .alike (.error ⟨hm.environment_eq, hm.depth_eq, hm.depth, hsame⟩)
    · obtain rfl : done = false := hfails
      cases done' <;> exact .cut hcut
  grows := grows_writeLine origin line

end Eval

/-! ## Trees -/

open Eval

variable {K : Abridgement}

section Tree

variable {call call' : Call} {rounds rounds' : Nat}

mutual

/-- An expression is abridged if the calls and the loops in it are. -/
theorem Expr.eval_abridges (hrounds : K.Rounds rounds rounds')
    (hcall : ∀ traced f vs, Abridges K (call traced f vs) (call' traced f vs)) :
    ∀ e : Expr, Abridges K (e.eval call rounds) (e.eval call' rounds')
  | .assign target value => by
    rw [Expr.eval, Expr.eval]
    refine abridges_bind (value.eval_abridges hrounds hcall) fun v => ?_
    exact abridges_bind (abridges_assign target v) fun _ => abridges_pure v
  | .binary op left right => by
    rw [Expr.eval, Expr.eval]
    refine abridges_bind (left.eval_abridges hrounds hcall) fun l => ?_
    exact abridges_bind (right.eval_abridges hrounds hcall) fun r => abridges_ofExcept _
  | .cast operand target => by
    rw [Expr.eval, Expr.eval]
    exact abridges_bind (operand.eval_abridges hrounds hcall) fun v => abridges_ofExcept _
  | .unary op operand => by
    rw [Expr.eval, Expr.eval]
    exact abridges_bind (operand.eval_abridges hrounds hcall) fun v => abridges_ofExcept _
  | .call traced callee arguments => by
    rw [Expr.eval, Expr.eval]
    refine abridges_bind (callee.eval_abridges hrounds hcall) fun v => ?_
    -- The arguments are only evaluated if there is a function to call.
    cases v with
    | function f =>
      exact abridges_bind (Expr.evalAll_abridges hrounds hcall arguments) fun vs =>
        hcall traced f vs
    | unit | int | float | str | bool => exact abridges_throw _
  | .lambda parameters body => by
    rw [Expr.eval, Expr.eval]
    exact abridges_pure _
  | .name name => by
    rw [Expr.eval, Expr.eval]
    exact abridges_lookup name
  | .paren inner => by
    rw [Expr.eval, Expr.eval]
    exact inner.eval_abridges hrounds hcall
  | .literal value => by
    rw [Expr.eval, Expr.eval]
    exact abridges_pure _

/-- Arguments abridge those with more calls and rounds. -/
theorem Expr.evalAll_abridges (hrounds : K.Rounds rounds rounds')
    (hcall : ∀ traced f vs, Abridges K (call traced f vs) (call' traced f vs)) :
    ∀ es : List Expr, Abridges K (Expr.evalAll call rounds es) (Expr.evalAll call' rounds' es)
  | [] => by
    rw [Expr.evalAll, Expr.evalAll]
    exact abridges_pure _
  | e :: es => by
    rw [Expr.evalAll, Expr.evalAll]
    refine abridges_bind (e.eval_abridges hrounds hcall) fun v => ?_
    exact abridges_bind (Expr.evalAll_abridges hrounds hcall es) fun vs => abridges_pure _

/-- A statement abridges the one with more calls and rounds. -/
theorem Stmt.exec_abridges (hrounds : K.Rounds rounds rounds')
    (hcall : ∀ traced f vs, Abridges K (call traced f vs) (call' traced f vs)) :
    ∀ s : Stmt, Abridges K (s.exec call rounds) (s.exec call' rounds')
  | .function name parameters body => by
    rw [Stmt.exec, Stmt.exec]
    exact abridges_bind (abridges_declare name _ false) fun _ => abridges_pure _
  | .declare name mutable value => by
    rw [Stmt.exec, Stmt.exec]
    refine abridges_bind (value.eval_abridges hrounds hcall) fun v => ?_
    exact abridges_bind (abridges_declare name v mutable) fun _ => abridges_pure _
  | .loop condition body => by
    rw [Stmt.exec, Stmt.exec]
    -- The test and the body of a loop are compared once, and the rounds afterwards.
    have htest := abridges_bind (condition.eval_abridges hrounds hcall) fun v =>
      abridges_truth .whileKey v
    have hbody := abridges_inScope (Stmt.execAll_abridges hrounds hcall .unit body)
    exact abridges_repeatWhile htest hbody hrounds
  | .conditional c => by
    rw [Stmt.exec, Stmt.exec]
    exact c.exec_abridges hrounds hcall
  | .leave none => by
    rw [Stmt.exec, Stmt.exec]
    exact abridges_pure _
  | .leave (some value) => by
    rw [Stmt.exec, Stmt.exec]
    exact abridges_bind (value.eval_abridges hrounds hcall) fun v => abridges_pure _
  | .expression e => by
    rw [Stmt.exec, Stmt.exec]
    exact abridges_bind (e.eval_abridges hrounds hcall) fun v => abridges_pure _
  | .empty => by
    rw [Stmt.exec, Stmt.exec]
    exact abridges_pure _

/-- Statements abridge those with more calls and rounds. -/
theorem Stmt.execAll_abridges (hrounds : K.Rounds rounds rounds')
    (hcall : ∀ traced f vs, Abridges K (call traced f vs) (call' traced f vs)) :
    ∀ (last : Value) (ss : List Stmt),
      Abridges K (Stmt.execAll call rounds last ss) (Stmt.execAll call' rounds' last ss)
  | last, [] => by
    rw [Stmt.execAll, Stmt.execAll]
    exact abridges_pure _
  | last, s :: ss => by
    rw [Stmt.execAll, Stmt.execAll]
    refine abridges_bind (s.exec_abridges hrounds hcall) fun flow => ?_
    cases flow with
    | normal v => exact Stmt.execAll_abridges hrounds hcall v ss
    | leave v => exact abridges_pure _

/-- A conditional abridges the one with more calls and rounds. -/
theorem Conditional.exec_abridges (hrounds : K.Rounds rounds rounds')
    (hcall : ∀ traced f vs, Abridges K (call traced f vs) (call' traced f vs)) :
    ∀ c : Conditional, Abridges K (c.exec call rounds) (c.exec call' rounds')
  | .mk condition body otherwise => by
    rw [Conditional.exec, Conditional.exec]
    refine abridges_bind (condition.eval_abridges hrounds hcall) fun v => ?_
    refine abridges_bind (abridges_truth _ v) fun holds => ?_
    cases holds with
    | true =>
      have hbody := abridges_inScope (Stmt.execAll_abridges hrounds hcall .unit body)
      exact abridges_bind hbody fun _ => abridges_pure _
    | false => exact abridges_bind (otherwise.exec_abridges hrounds hcall) fun _ => abridges_pure _

/-- What is executed otherwise abridges what is with more calls and rounds. -/
theorem Alternative.exec_abridges (hrounds : K.Rounds rounds rounds')
    (hcall : ∀ traced f vs, Abridges K (call traced f vs) (call' traced f vs)) :
    ∀ a : Alternative, Abridges K (a.exec call rounds) (a.exec call' rounds')
  | .nothing => by
    rw [Alternative.exec, Alternative.exec]
    exact abridges_pure _
  | .block body => by
    rw [Alternative.exec, Alternative.exec]
    exact abridges_inScope (Stmt.execAll_abridges hrounds hcall .unit body)
  | .chain c => by
    rw [Alternative.exec, Alternative.exec]
    exact c.exec_abridges hrounds hcall

end

/-! ## Calls -/

variable (hwrites : K.Writes) (hrounds : K.Rounds rounds rounds')
  (hcall : ∀ traced f vs, Abridges K (call traced f vs) (call' traced f vs))
include hwrites hrounds hcall

/-- The body of a function abridges the one with more calls and rounds. -/
theorem Function.enter_abridges (f : Function) (vs : List Value) :
    Abridges K (f.enter call rounds vs) (f.enter call' rounds' vs) := by
  cases f with
  | print =>
    rw [Function.enter, Function.enter]
    refine abridges_bind ?_ fun _ => abridges_pure _
    induction vs with
    | nil => exact abridges_pure ()
    | cons v vs ih => exact abridges_bind (abridges_writeLine hwrites .print v.text) fun _ => ih
  | user parameters body =>
    rw [Function.enter, Function.enter]
    refine abridges_inScope (abridges_bind (abridges_bindAll parameters vs) fun _ => ?_)
    exact abridges_bind (Stmt.execAll_abridges hrounds hcall .unit body) fun _ => abridges_pure _
  | composed first second =>
    rw [Function.enter, Function.enter]
    exact abridges_bind (hcall false first vs) fun v => hcall false second [v]

/-- The body of a function, between the lines that report a traced call, abridges the one with more
calls and rounds. -/
theorem Function.enterTraced_abridges (traced : Bool) (f : Function) (vs : List Value) :
    Abridges K (f.enterTraced call rounds traced vs) (f.enterTraced call' rounds' traced vs) := by
  have henter := f.enter_abridges hwrites hrounds hcall vs
  unfold Function.enterTraced
  cases traced with
  | false => exact henter
  | true =>
    refine abridges_bind (abridges_writeLine hwrites _ _) fun _ => ?_
    refine abridges_bind henter fun result => ?_
    exact abridges_bind (abridges_writeLine hwrites _ _) fun _ => abridges_pure _

end Tree

namespace Abridgement

/-- Both evaluations do exactly the same. -/
def exact : Abridgement where
  depths _ := True
  same out out' := out' = out
  cut _ _ _ := False
  cut_of_growsTo h _ := h

/-- Writing to equal outputs is the same. -/
theorem writes_of_same_eq {K : Abridgement} (h : K.same = fun out out' => out' = out) :
    K.Writes := by
  intro out out' hsame origin text
  rw [h] at hsame ⊢
  subst hsame
  exact .inl ⟨rfl, rfl⟩

end Abridgement

/-- A call only adds to the output. -/
theorem Function.call_grows (bounds : Bounds) (depth : Nat) (traced : Bool) (f : Function)
    (vs : List Value) : Keeps Machine.GrowsTo (Function.call bounds depth traced f vs) := by
  suffices h : ∀ traced f vs, Abridges .exact (Function.call bounds depth traced f vs)
      (Function.call bounds depth traced f vs) from (h traced f vs).grows
  -- Related to itself by the exact abridgement, a call grows the output as any other evaluation
  -- does.
  induction depth with
  | zero =>
    intro traced f vs
    unfold Function.call
    split
    · exact abridges_throw _
    · exact abridges_throw _
  | succ depth ih =>
    intro traced f vs
    unfold Function.call
    split
    · have hbody := f.enterTraced_abridges (Abridgement.writes_of_same_eq rfl)
        (.inl (Eq.refl bounds.rounds)) ih traced vs
      exact abridges_inCall (fun _ => trivial) hbody
    · exact abridges_throw _

/-- A call only adds to the output. -/
theorem Bounds.call_grows (bounds : Bounds) (traced : Bool) (f : Function) (vs : List Value) :
    Keeps Machine.GrowsTo (bounds.call traced f vs) :=
  fun m => Function.call_grows bounds (bounds.callDepth - m.depth) traced f vs m

/-- With a wrong number of arguments a call fails, however many calls may still be nested. -/
theorem Function.call_of_length_ne {bounds : Bounds} {depth : Nat} {traced : Bool} {f : Function}
    {vs : List Value} (h : vs.length ≠ f.arity) :
    Function.call bounds depth traced f vs = fail (.arityMismatch f.arity vs.length) := by
  cases depth with
  | zero => rw [Function.call, if_neg h]
  | succ depth => rw [Function.call, if_neg h]

/-- What lets an evaluation within some bounds abridge the same one within others: evaluations are
compared for all numbers of calls in progress, and for all writes, and the bounds are the same or
exceeding the first ones may stop an evaluation. -/
structure Abridgement.Admits (K : Abridgement) (bounds bounds' : Bounds) : Prop where
  depths : ∀ depth, K.depths depth
  writes : K.Writes
  rounds : K.Rounds bounds.rounds bounds'.rounds
  calls : bounds.callDepth = bounds'.callDepth ∨ bounds.callDepth ≤ bounds'.callDepth ∧
    ∀ out out', K.same out out' → K.cut (.error (.callDepthExceeded bounds.callDepth)) out out'

section Call

variable {bounds bounds' : Bounds} (h : K.Admits bounds bounds')
include h

/-- Calls are abridged if equally many of them may still be nested, or if less of them may be and
wanting to nest more stops an evaluation. -/
theorem Function.call_abridges {depth depth' : Nat}
    (hcalls : bounds.callDepth = bounds'.callDepth ∧ depth = depth' ∨ depth ≤ depth' ∧
      ∀ out out', K.same out out' → K.cut (.error (.callDepthExceeded bounds.callDepth)) out out')
    (traced : Bool) (f : Function) (vs : List Value) :
    Abridges K (Function.call bounds depth traced f vs)
      (Function.call bounds' depth' traced f vs) := by
  induction depth generalizing depth' traced f vs with
  | zero =>
    -- The arguments are counted before the calls, so a wrong number fails alike in both.
    by_cases harity : vs.length = f.arity
    · rw [Function.call, if_pos harity]
      obtain ⟨hbounds, rfl⟩ | ⟨-, hcut⟩ := hcalls
      · rw [Function.call, if_pos harity, hbounds]
        exact abridges_throw _
      · exact abridges_of_cut (Function.call_grows bounds' depth' traced f vs) hcut
    · rw [Function.call_of_length_ne harity, Function.call_of_length_ne harity]
      exact abridges_throw _
  | succ depth ih =>
    by_cases harity : vs.length = f.arity
    · obtain ⟨n, rfl⟩ : ∃ n, depth' = n + 1 := by
        obtain ⟨-, rfl⟩ | ⟨hle, -⟩ := hcalls
        · exact ⟨depth, rfl⟩
        · exact ⟨depth' - 1, by omega⟩
      have hinner : bounds.callDepth = bounds'.callDepth ∧ depth = n ∨ depth ≤ n ∧
          ∀ out out', K.same out out' →
            K.cut (.error (.callDepthExceeded bounds.callDepth)) out out' := by
        obtain ⟨hbounds, heq⟩ | ⟨hle, hcut⟩ := hcalls
        · exact .inl ⟨hbounds, by omega⟩
        · exact .inr ⟨by omega, hcut⟩
      -- The body is entered with one call less to nest on both sides.
      have hbody := f.enterTraced_abridges h.writes h.rounds (ih hinner) traced vs
      rw [Function.call, Function.call, if_pos harity, if_pos harity]
      exact abridges_inCall h.depths hbody
    · rw [Function.call_of_length_ne harity, Function.call_of_length_ne harity]
      exact abridges_throw _

namespace Bounds

/-- Calls are abridged, whatever the number of calls in progress is. -/
theorem call_abridges (traced : Bool) (f : Function) (vs : List Value) :
    Abridges K (bounds.call traced f vs) (bounds'.call traced f vs) where
  outcomes m m' hm := by
    unfold call
    rw [hm.depth_eq]
    refine (Function.call_abridges h ?_ traced f vs).outcomes m m' hm
    obtain hbounds | ⟨hle, hcut⟩ := h.calls
    · exact .inl ⟨hbounds, by rw [hbounds]⟩
    · exact .inr ⟨Nat.sub_le_sub_right hle m.depth, hcut⟩
  grows := bounds'.call_grows traced f vs

/-- Statements within bounds abridge those within admitted ones. -/
theorem statements_abridges (ss : List Stmt) :
    Abridges K (bounds.statements ss) (bounds'.statements ss) :=
  Stmt.execAll_abridges h.rounds (call_abridges h) .unit ss

/-- A program within bounds abridges the one within admitted ones. -/
theorem program_abridges (p : Program) : Abridges K (bounds.program p) (bounds'.program p) :=
  abridges_bind (abridges_inScope (statements_abridges h p.statements)) fun _ => abridges_pure _

/-- The value of a program within bounds abridges the one within admitted ones. -/
theorem run_abridges (p : Program) : Abridges K (bounds.run p) (bounds'.run p) :=
  abridges_bind (program_abridges h p) fun _ => abridges_pure _

/-- The value of a program in a session abridges the one within admitted bounds. -/
theorem runInSession_abridges (p : Program) :
    Abridges K (bounds.runInSession p) (bounds'.runInSession p) :=
  abridges_bind (statements_abridges h p.statements) fun _ => abridges_pure _

end Bounds

end Call

end Brisk
