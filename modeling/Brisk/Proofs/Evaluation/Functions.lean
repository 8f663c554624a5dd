import Brisk.Proofs.Evaluation.Demand
import Brisk.Proofs.Evaluation.Origin

/-!
# Well-formed functions in an evaluation

The parser lets no function have two parameters of one name, and only functions of one parameter can
be composed. A function value is well-formed if it keeps to this, and the functions that it is made
from do (`Function.WellFormed`). If all functions are well-formed that are bound when a task starts,
and all that are written in its trees, then they are throughout: in every task that is visited, the
functions that it has at hand are, those that are bound, and those that it comes to
(`Task.Visits.meets`, `Task.Meets.sound`).

So calls do not fail on the way into a function. Parameters are bound to arguments without conflict,
the halves of a composition take what they are given, and the printing function has one value to
print (`Function.Accepts`). In particular, a name that is declared twice was declared by a statement
(`Task.exists_redeclaration`).
-/

namespace Brisk

open Eval

/-! ## Well-formed values -/

namespace Function

open Parameter (Distinct)

/-- Whether no two parameters have the same name, the printing function has one parameter, and
compositions take what their first half takes and have halves of one parameter. -/
def WellFormed : Function → Prop
  | user parameters body => Distinct (user parameters body).parameters
  | print => Distinct print.parameters ∧ print.arity = 1
  | composed first second =>
    Distinct (composed first second).parameters ∧
      (composed first second).parameters = first.parameters ∧
      first.WellFormed ∧ second.WellFormed ∧ first.arity = 1 ∧ second.arity = 1

/-- A function that is well-formed has distinct parameters, be they those of its first half. -/
theorem WellFormed.distinct {f : Function} (h : f.WellFormed) : Distinct f.parameters := by
  cases f with
  | user parameters body => exact h
  | print | composed first second => exact h.1

/-- What is asked of function literals and statements makes functions well-formed. -/
theorem Meets.wellFormed {f : Function} (h : f.Meets .wellFormed) : f.WellFormed := by
  induction f with
  | user parameters body => exact h.1
  | print => exact ⟨by decide, rfl⟩
  | composed first second ihfirst ihsecond =>
    obtain ⟨hfirst, hsecond, hone, hone'⟩ := h
    exact ⟨(ihfirst hfirst).distinct, rfl, ihfirst hfirst, ihsecond hsecond, hone, hone'⟩

/-- Whether a function can take arguments in a machine: those of a user's function are bound in a
scope of their own, the printing function prints one value, and the halves of a composition take
what they are given, the second one the result of the first. -/
def Accepts (vs : List Value) (m : Machine) : Function → Prop
  | user parameters _ =>
    bindAll parameters vs { m with environment := m.environment.push } =
      .ok () { m with environment :=
        ⟨(List.zipWith (fun p v => (p.name, ⟨v, p.mutable⟩)) parameters vs).reverse ::
          m.environment.scopes⟩ }
  | print => ∃ v, vs = [v]
  | composed first second =>
    vs.length = first.arity ∧ ∀ result : Value, [result].length = second.arity

end Function

/-- Whether a value is no function or a well-formed one. -/
def Value.WellFormed (v : Value) : Prop := ∀ f, v = .function f → f.WellFormed

/-- Whether all functions that are bound in an environment are well-formed. -/
def Environment.WellFormed (env : Environment) : Prop :=
  ∀ scope ∈ env.scopes, ∀ name b, scope.lookup name = some b → b.value.WellFormed

/-- It makes values well-formed. -/
theorem Value.Meets.wellFormed {v : Value} (h : v.Meets .wellFormed) : v.WellFormed := by
  rintro f rfl
  exact Function.Meets.wellFormed h

/-- It makes all values of an environment well-formed. -/
theorem Environment.Meets.wellFormed {env : Environment} (h : env.Meets .wellFormed) :
    env.WellFormed :=
  fun scope hscope name b hb => (h scope hscope name b hb).wellFormed

/-- Distinct names are bound in a scope that binds none of them. -/
theorem Eval.bindAll_of_distinct {ps : List Parameter} (hps : Parameter.Distinct ps)
    (vs : List Value) {m : Machine} {scope : Scope} {outer : List Scope}
    (hscopes : m.environment.scopes = scope :: outer)
    (hfresh : ∀ p ∈ ps, scope.lookup p.name = none) :
    bindAll ps vs m = .ok () { m with environment :=
      ⟨((List.zipWith (fun p v => (p.name, ⟨v, p.mutable⟩)) ps vs).reverse ++ scope) ::
        outer⟩ } := by
  -- The induction is on the parameters, each of which makes the scope larger by its name.
  induction ps generalizing vs m scope with
  | nil =>
    -- The environment is taken apart, so that both sides are the same record.
    obtain ⟨⟨scopes⟩, output, depth⟩ := m
    obtain rfl : scopes = scope :: outer := hscopes
    rfl
  | cons p ps ih =>
    cases vs with
    | nil =>
      obtain ⟨⟨scopes⟩, output, depth⟩ := m
      obtain rfl : scopes = scope :: outer := hscopes
      rfl
    | cons v vs =>
      have hdistinct : p.name ∉ ps.map (·.name) ∧ Parameter.Distinct ps :=
        List.nodup_cons.mp hps
      rw [List.forall_mem_cons] at hfresh
      -- The name is new in the scope, which is all that a declaration asks for.
      have hdeclare : declare p.name v p.mutable m =
          .ok () { m with environment := ⟨((p.name, ⟨v, p.mutable⟩) :: scope) :: outer⟩ } := by
        unfold declare Environment.declare?
        rw [hscopes]
        simp only [hfresh.1]
      -- The names behind it are others, so the scope does not bind them yet.
      have hrest : ∀ q ∈ ps, List.lookup q.name ((p.name, ⟨v, p.mutable⟩) :: scope) = none := by
        intro q hq
        have hne : q.name ≠ p.name := fun h => hdistinct.1 (h ▸ List.mem_map_of_mem hq)
        rw [List.lookup_cons, beq_eq_false_iff_ne.mpr hne]
        exact hfresh.2 q hq
      rw [bindAll, bind_of_ok hdeclare, ih hdistinct.2 vs rfl hrest, List.zipWith_cons_cons,
        List.reverse_cons, List.append_assoc]
      rfl

/-- A well-formed function accepts as many arguments as it has parameters: their names are distinct,
so each can be declared in the scope of the call. -/
theorem Function.Meets.accepts {f : Function} (h : f.Meets .wellFormed) {vs : List Value}
    (harity : vs.length = f.arity) (m : Machine) : f.Accepts vs m := by
  cases f with
  | user parameters body =>
    have hbind := bindAll_of_distinct h.1 vs
      (m := { m with environment := m.environment.push }) rfl fun _ _ => rfl
    rwa [List.append_nil] at hbind
  | print => exact List.length_eq_one_iff.mp harity
  | composed first second =>
    obtain ⟨-, -, -, hsecond⟩ := h
    exact ⟨harity, fun _ => hsecond.symm⟩

/-! ## Tasks -/

namespace Task

/-- Whether the trees of a task and the values that it has at hand meet a demand. A function whose
body is evaluated takes as many arguments as there are. -/
def Meets (d : Demand) : Task → Prop
  | expression e => e.Meets d
  | expressions es => Expr.AllMeet d es
  | statement s => s.Meets d
  | statements last ss => last.Meets d ∧ Stmt.AllMeet d ss
  | block ss => Stmt.AllMeet d ss
  | conditional c => c.Meets d
  | alternative a => a.Meets d
  | loop _ condition ss => d.loops ∧ condition.Meets d ∧ Stmt.AllMeet d ss
  | call _ f vs => f.Meets d ∧ ∀ v ∈ vs, v.Meets d
  | body f vs => f.Meets d ∧ vs.length = f.arity ∧ ∀ v ∈ vs, v.Meets d

/-- The values that a task has at hand: the one that the statements before it have left, or a
function and its arguments. -/
def values : Task → List Value
  | statements last _ => [last]
  | call _ f vs | body f vs => .function f :: vs
  | expression _ | expressions _ | statement _ | block _ | conditional _ | alternative _
  | loop _ _ _ => []

variable {d : Demand} {bounds : Bounds} {t : Task} {m : Machine}

/-- The values that a task has been given meet the demand if the task does. -/
theorem Meets.values (h : t.Meets d) : ∀ v ∈ t.values, v.Meets d := by
  cases t with
  | statements last ss => exact List.forall_mem_singleton.mpr h.1
  | call traced f vs => exact List.forall_mem_cons.mpr h
  | body f vs => exact List.forall_mem_cons.mpr ⟨h.1, h.2.2⟩
  | expression | expressions | statement | block | conditional | alternative | loop =>
    exact fun v hv => absurd hv List.not_mem_nil

/-- A task that meets a demand yields values that do. -/
theorem perform_yields (h : t.Meets d) :
    Yields d (fun vs => ∀ v ∈ vs, v.Meets d) (t.perform bounds) := by
  -- Every kind of task ends with a value, with a flow or with the values of arguments.
  have hvalue {action : Eval Value} (h : Yields d (Value.Meets d) action) :
      Yields d (fun vs => ∀ v ∈ vs, v.Meets d) (do return [← action]) :=
    yields_bind h fun v hv => yields_pure (List.forall_mem_singleton.mpr hv)
  have hflow {action : Eval Flow} (h : Yields d (Flow.Meets d) action) :
      Yields d (fun vs => ∀ v ∈ vs, v.Meets d) (do return [(← action).value]) :=
    yields_bind h fun flow hflow => yields_pure (List.forall_mem_singleton.mpr hflow.value)
  cases t with
  -- Each kind of task has its own lemma, and only loops and calls ask for more than the tree.
  | expression e => exact hvalue (bounds.expression_yields h)
  | expressions es => exact Expr.evalAll_yields bounds.call_yields es h
  | statement s => exact hflow (s.exec_yields bounds.call_yields h)
  | statements last ss => exact hflow (Stmt.execAll_yields bounds.call_yields last ss h.1 h.2)
  | block ss => exact hflow (yields_inScope (bounds.statements_yields h))
  | conditional c => exact hflow (c.exec_yields bounds.call_yields h)
  | alternative a => exact hflow (a.exec_yields bounds.call_yields h)
  | loop rounds condition ss =>
    obtain ⟨hloops, hcondition, hss⟩ := h
    have htest := yields_bind (bounds.expression_yields hcondition) fun v _ =>
      yields_truth .whileKey v
    exact hflow
      (yields_repeatWhile hloops htest (yields_inScope (bounds.statements_yields hss)) rounds)
  | call traced f vs => exact hvalue (bounds.call_yields traced f vs h.1 h.2)
  | body f vs => exact hvalue (Function.enter_yields bounds.call_yields h.1 h.2.2)

end Task

/-- The line in front of a traced call does not touch the environment. -/
theorem Eval.yields_reportCall {d : Demand} (traced : Bool) (f : Function) (vs : List Value) :
    Yields d (fun _ => True) (f.reportCall traced vs) := by
  unfold Function.reportCall
  split
  · exact yields_writeLine _ _
  · exact yields_pure trivial

/-- The parts of a task that meets a demand do, in an environment that does. -/
theorem Part.meets {d : Demand} {bounds : Bounds} {t t' : Task} {m m' : Machine}
    (h : Part bounds t m t' m') (ht : t.Meets d) (hm : m.environment.Meets d) :
    t'.Meets d ∧ m'.environment.Meets d := by
  cases h with
  -- Parts of the same tree in the same machine.
  | assigned | casted | operand | inner | declared | conditional | returned | expression | otherwise
  | chain | loop => exact ⟨ht, hm⟩
  | left | callee | head | condition => exact ⟨ht.1, hm⟩
  | right h => exact ⟨ht.2, ((bounds.expression_yields ht.1).ok hm h).2⟩
  | arguments h => exact ⟨ht.2, ((bounds.expression_yields ht.1).ok hm h).2⟩
  -- What is called is a value, which meets the demand because its expression does.
  | call h h' =>
    obtain ⟨hf, hm'⟩ := (bounds.expression_yields ht.1).ok hm h
    obtain ⟨hvs, hm''⟩ := (Expr.evalAll_yields bounds.call_yields _ ht.2).ok hm' h'
    exact ⟨⟨hf, hvs⟩, hm''⟩
  | tail h => exact ⟨ht.2, ((bounds.expression_yields ht.1).ok hm h).2⟩
  | first => exact ⟨ht.2.1, hm⟩
  | rest h =>
    obtain ⟨hv, hm'⟩ := (Stmt.exec_yields bounds.call_yields _ ht.2.1).ok hm h
    exact ⟨⟨hv, ht.2.2⟩, hm'⟩
  -- Inside of a block the scope is new and holds nothing.
  | inBlock => exact ⟨⟨trivial, ht⟩, hm.push⟩
  | holds h => exact ⟨ht.2.1, ((bounds.expression_yields ht.1).ok hm h).2⟩
  | fails h => exact ⟨ht.2.2, ((bounds.expression_yields ht.1).ok hm h).2⟩
  | test => exact ⟨ht.2.1, hm⟩
  | round h => exact ⟨ht.2.2, ((bounds.expression_yields ht.2.1).ok hm h).2⟩
  | again h h' =>
    have hm' := ((bounds.expression_yields ht.2.1).ok hm h).2
    exact ⟨ht, ((yields_inScope (bounds.statements_yields ht.2.2)).ok hm' h').2⟩
  | @body traced f vs _ _ harity hdepth h =>
    have hentered : ({ m with depth := m.depth + 1 } : Machine).environment.Meets d := hm
    exact ⟨⟨ht.1, harity, ht.2⟩, ((yields_reportCall traced f vs).ok hentered h).2⟩
  -- The parameters are bound to arguments that meet the demand.
  | user h =>
    have hbind := (yields_bindAll _ ht.2.2).ok hm.push h
    exact ⟨⟨trivial, ht.1.2⟩, hbind.2⟩
  | firstHalf => exact ⟨⟨ht.1.1, ht.2.2⟩, hm⟩
  | secondHalf h =>
    obtain ⟨hfirst, hsecond, -, -⟩ := ht.1
    obtain ⟨hv, hm'⟩ := (bounds.call_yields _ _ _ hfirst ht.2.2).ok hm h
    exact ⟨⟨hsecond, List.forall_mem_singleton.mpr hv⟩, hm'⟩

/-- What holds whenever a task is performed: functions are well-formed that are bound, that the task
has at hand, that it comes to, and that are bound when it has ended, with a result or not. If it is
the body of a function, the function can take its arguments. -/
structure Task.Sound (bounds : Bounds) (t : Task) (m : Machine) : Prop where
  bound : m.environment.WellFormed
  values : ∀ v ∈ t.values, v.WellFormed
  results : ∀ vs m', t.perform bounds m = .ok vs m' → ∀ v ∈ vs, v.WellFormed
  left : ((t.perform bounds).after m).environment.WellFormed
  accepts : ∀ f vs, t = .body f vs → f.Accepts vs m

namespace Task

variable {bounds : Bounds} {t t' : Task} {m m' : Machine} {n : Nat}

/-- The tasks that are visited meet a demand if the first one does. -/
theorem Visits.meets {d : Demand} (h : t.Visits bounds m n t' m') (ht : t.Meets d)
    (hm : m.environment.Meets d) : t'.Meets d ∧ m'.environment.Meets d := by
  induction h with
  | start => exact ⟨ht, hm⟩
  | part _ hpart ih => exact hpart.meets ih.1 ih.2

/-- What is asked of the trees of a task makes it sound in every environment in which it is asked of
the values. -/
theorem Meets.sound (ht : t.Meets .wellFormed) (hm : m.environment.Meets .wellFormed) :
    t.Sound bounds m where
  bound := hm.wellFormed
  values v hv := (ht.values v hv).wellFormed
  results vs m' hvs v hv := (((perform_yields ht).ok hm hvs).1 v hv).wellFormed
  left := by
    unfold after
    cases hr : t.perform bounds m with
    | ok vs m' => exact ((perform_yields ht).ok hm hr).2.wellFormed
    | error e m' => exact ((perform_yields ht).error hm hr).2.wellFormed
  accepts := by
    rintro f vs rfl
    exact ht.1.accepts ht.2.1 m

/-- A name that is declared twice was declared by a statement, not by a parameter. -/
theorem exists_redeclaration (ht : t.Meets .wellFormed) (hm : m.environment.Meets .wellFormed)
    {x : String} (h : Fails (t.perform bounds) m (.error (.redeclared x))) :
    ∃ n s m', t.Visits bounds m n (.statement s) m' ∧ x ∈ s.declared ∧
      (statement s).Raises bounds m' (.error (.redeclared x)) := by
  -- The error comes from one evaluation that fails by itself, of which there are few kinds.
  obtain ⟨n, t', m', hvisits, hraises⟩ := exists_origin h
  cases hraises with
  | function hname => exact ⟨n, _, m', hvisits, List.mem_singleton_self x, .function hname⟩
  | declare hv hname => exact ⟨n, _, m', hvisits, List.mem_singleton_self x, .declare hv hname⟩
  | bind hbind =>
    -- The parameters of a well-formed function are bound.
    obtain ⟨⟨hf, harity, -⟩, -⟩ := hvisits.meets ht hm
    obtain ⟨m'', hbind⟩ := hbind
    have haccepts := hf.accepts harity m'
    unfold Function.Accepts at haccepts
    rw [haccepts] at hbind
    cases hbind
  -- An assignment fails in other ways.
  | assign _ hfails =>
    obtain h | h := hfails.assign_cases
    · cases h
    · cases h
  | @binary op _ _ l r _ _ _ _ _ _ hfails =>
    -- An operator fails because of its operands, never because of a name.
    obtain hoperates | ⟨f, g, -, -, -, -, hcomposed⟩ := op.apply_operates l r
    · exact (hoperates.ofOperation hfails).elim
    · rw [hcomposed] at hfails
      cases hfails
  | @cast _ target v _ _ _ _ hfails => exact ((v.cast_operates target).ofOperation hfails).elim
  | @unary op _ v _ _ _ _ hfails => exact ((op.apply_operates v).ofOperation hfails).elim

end Task

end Brisk
