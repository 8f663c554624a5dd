import Brisk.Proofs.Evaluation.Abridged

/-!
# The parts of an evaluation

An evaluation consists of smaller ones: of an expression, of its operands, of a call, of the body of
the function that is called, and so on. `Part` relates a task and the machine in which it is
performed to the tasks that are performed directly on the way, each with the machine in which it
starts, which is the one that the tasks before it have left. `Task.Visits` follows parts to any
depth and counts the calls that are entered: these are the calls in progress. So what holds of all
visited machines holds at all times of a run.

A call can be described without the recursion on the calls that may still be nested
(`Bounds.call_unfold`): it fails at once if there is no room for it, and otherwise evaluates the
body of the function, in which calls are again such calls, one deeper. Hence the number of calls in
progress is the one that the machine counts, and it stays within the bound (`Task.Visits.depth_eq`).

Parts are steps of the evaluator, but that does not say that they are all of its steps. That an
evaluation enters the calls that it visits and no others is proved for monitored evaluations
(`Task.performUnder_eq`), and that every error comes from a task that is visited for those that fail
(`Task.exists_origin`).
-/

namespace Brisk

open Eval

/-! ## Calls without a bound on their nesting -/

/-- Both evaluations do exactly the same when a given number of calls is in progress. -/
def Abridgement.atDepth (depth : Nat) : Abridgement where
  depths d := d = depth
  same out out' := out' = out
  cut _ _ _ := False
  cut_of_growsTo h _ := h

/-- An evaluation that keeps the number of calls in progress does what it does. -/
theorem Eval.outcomes_atDepth {α : Type} {fresh : List String} {action : Eval α}
    (h : Keeps (Machine.Frame fresh) action) {m : Machine} {depth : Nat} (hm : m.depth = depth) :
    (Abridgement.atDepth depth).Outcomes (action m) (action m) := by
  cases hr : action m with
  | ok a m' =>
    have hdepth : m'.depth = depth := (h.ok hr).depth_eq.trans hm
    exact .alike (.ok ⟨rfl, rfl, hdepth, rfl⟩)
  | error e m' =>
    have hdepth : m'.depth = depth := (h.error hr).depth_eq.trans hm
    exact .alike (.error ⟨rfl, rfl, hdepth, rfl⟩)

/-- A call with the right number of arguments for which there is room evaluates the body of the
function, in which calls are made in the same way. -/
theorem Bounds.call_eq (bounds : Bounds) (traced : Bool) {f : Function} {vs : List Value}
    {m : Machine} (harity : vs.length = f.arity) (hdepth : m.depth < bounds.callDepth) :
    bounds.call traced f vs m = inCall (f.enterTraced bounds.call bounds.rounds traced vs) m := by
  -- In the body, the calls that may still be nested are those for which the machine leaves room.
  have hcall : ∀ traced f vs, Abridges (.atDepth (m.depth + 1))
      (Function.call bounds (bounds.callDepth - (m.depth + 1)) traced f vs)
      (bounds.call traced f vs) := by
    intro traced f vs
    refine ⟨fun m₁ m₁' hm => ?_, bounds.call_grows traced f vs⟩
    obtain rfl := eq_of_level id hm
    have hm₁ : m₁'.depth = m.depth + 1 := hm.depth
    have hkeeps := Function.call_keeps bounds (bounds.callDepth - (m.depth + 1)) traced f vs
    unfold Bounds.call
    rw [hm₁]
    exact outcomes_atDepth hkeeps hm₁
  have hbody := f.enterTraced_abridges (Abridgement.writes_of_same_eq rfl)
    (.inl (Eq.refl bounds.rounds)) hcall traced vs
  have houtcomes := hbody.outcomes { m with depth := m.depth + 1 } { m with depth := m.depth + 1 }
    ⟨rfl, rfl, rfl, rfl⟩
  -- The call itself takes one of the calls that may still be nested.
  have hleft : bounds.callDepth - m.depth = bounds.callDepth - (m.depth + 1) + 1 := by omega
  have hunfold : bounds.call traced f vs m =
      Function.call bounds (bounds.callDepth - m.depth) traced f vs m := rfl
  rw [hunfold, hleft, Function.call, if_pos harity]
  unfold inCall
  generalize f.enterTraced (Function.call bounds (bounds.callDepth - (m.depth + 1)))
      bounds.rounds traced vs { m with depth := m.depth + 1 } = r,
    f.enterTraced bounds.call bounds.rounds traced vs { m with depth := m.depth + 1 } = r'
    at houtcomes
  cases houtcomes with
  | alike halike =>
    obtain rfl := eq_of_alike id halike
    rfl
  | cut hcut => exact hcut.elim

/-- What a call does in any machine: it fails if there are too many or too few arguments, or if
there is no room for another call, and then changes nothing, and otherwise evaluates the body of the
function one call deeper. -/
theorem Bounds.call_unfold (bounds : Bounds) (traced : Bool) (f : Function) (vs : List Value)
    (m : Machine) : bounds.call traced f vs m =
      if vs.length = f.arity then
        if m.depth < bounds.callDepth then
          inCall (f.enterTraced bounds.call bounds.rounds traced vs) m
        else .error (.error (.callDepthExceeded bounds.callDepth)) m
      else .error (.error (.arityMismatch f.arity vs.length)) m := by
  by_cases harity : vs.length = f.arity
  · rw [if_pos harity]
    by_cases hdepth : m.depth < bounds.callDepth
    · rw [if_pos hdepth, bounds.call_eq traced harity hdepth]
    · -- No more calls may be nested, and that is the case in which a call fails at once.
      have hleft : bounds.callDepth - m.depth = 0 := by omega
      rw [if_neg hdepth, Bounds.call, hleft, Function.call, if_pos harity]
      rfl
  · rw [if_neg harity, Bounds.call, Function.call_of_length_ne harity]
    rfl

/-! ## Tasks and their parts -/

/-- What can be performed in the course of an evaluation. -/
inductive Task where
  | expression (e : Expr)
  | expressions (es : List Expr)
  | statement (s : Stmt)
  /-- Statements in the innermost scope, behind others that have left a value. -/
  | statements (last : Value) (ss : List Stmt)
  | block (ss : List Stmt)
  | conditional (c : Conditional)
  | alternative (a : Alternative)
  /-- The rounds of a loop that are left. -/
  | loop (rounds : Nat) (condition : Expr) (body : List Stmt)
  | call (traced : Bool) (f : Function) (arguments : List Value)
  /-- The body of a function that is being called. -/
  | body (f : Function) (arguments : List Value)

/-- The line in front of a traced call. -/
def Function.reportCall (traced : Bool) (f : Function) (arguments : List Value) : Eval Unit :=
  if traced then writeLine .callTrace (f.callLine arguments) else return ()

/-- The line behind a traced call. -/
def Function.reportReturn (traced : Bool) (result : Value) : Eval Unit :=
  if traced then writeLine .returnTrace (returnLine result) else return ()

/-- A call consists of its body and what is reported in front of it and behind. -/
theorem Function.enterTraced_eq (call : Call) (rounds : Nat) (traced : Bool) (f : Function)
    (vs : List Value) : f.enterTraced call rounds traced vs = (do
      f.reportCall traced vs
      let result ← f.enter call rounds vs
      reportReturn traced result
      return result) := by
  unfold enterTraced reportCall reportReturn
  cases traced with
  | true => rfl
  | false => simp

/-- The line in front of a traced call is written and nothing else. -/
theorem Eval.keeps_reportCall (traced : Bool) (f : Function) (vs : List Value) :
    Keeps (Machine.Frame []) (f.reportCall traced vs) := by
  unfold Function.reportCall
  split
  · exact keeps_writeLine _ _
  · exact keeps_pure _

/-- `Part bounds t m t' m'` means that performing `t` in `m` involves performing `t'` in `m'`, and
not on behalf of another part. -/
inductive Part (bounds : Bounds) : Task → Machine → Task → Machine → Prop where
  | assigned {target : String} {value : Expr} {m : Machine} :
      Part bounds (.expression (.assign target value)) m (.expression value) m
  | left {op : BinaryOp} {l r : Expr} {m : Machine} :
      Part bounds (.expression (.binary op l r)) m (.expression l) m
  | right {op : BinaryOp} {l r : Expr} {v : Value} {m m' : Machine}
      (h : bounds.expression l m = .ok v m') :
      Part bounds (.expression (.binary op l r)) m (.expression r) m'
  | casted {operand : Expr} {target : TypeName} {m : Machine} :
      Part bounds (.expression (.cast operand target)) m (.expression operand) m
  | operand {op : UnaryOp} {operand : Expr} {m : Machine} :
      Part bounds (.expression (.unary op operand)) m (.expression operand) m
  | inner {e : Expr} {m : Machine} : Part bounds (.expression (.paren e)) m (.expression e) m
  | callee {traced : Bool} {callee : Expr} {arguments : List Expr} {m : Machine} :
      Part bounds (.expression (.call traced callee arguments)) m (.expression callee) m
  | arguments {traced : Bool} {callee : Expr} {arguments : List Expr} {f : Function}
      {m m' : Machine} (h : bounds.expression callee m = .ok (.function f) m') :
      Part bounds (.expression (.call traced callee arguments)) m (.expressions arguments) m'
  | call {traced : Bool} {callee : Expr} {arguments : List Expr} {f : Function} {vs : List Value}
      {m m' m'' : Machine} (h : bounds.expression callee m = .ok (.function f) m')
      (h' : Expr.evalAll bounds.call bounds.rounds arguments m' = .ok vs m'') :
      Part bounds (.expression (.call traced callee arguments)) m (.call traced f vs) m''
  | head {e : Expr} {es : List Expr} {m : Machine} :
      Part bounds (.expressions (e :: es)) m (.expression e) m
  | tail {e : Expr} {es : List Expr} {v : Value} {m m' : Machine}
      (h : bounds.expression e m = .ok v m') :
      Part bounds (.expressions (e :: es)) m (.expressions es) m'
  | declared {name : String} {mutable : Bool} {value : Expr} {m : Machine} :
      Part bounds (.statement (.declare name mutable value)) m (.expression value) m
  | loop {condition : Expr} {body : List Stmt} {m : Machine} :
      Part bounds (.statement (.loop condition body)) m (.loop bounds.rounds condition body) m
  | conditional {c : Conditional} {m : Machine} :
      Part bounds (.statement (.conditional c)) m (.conditional c) m
  | returned {value : Expr} {m : Machine} :
      Part bounds (.statement (.leave (some value))) m (.expression value) m
  | expression {e : Expr} {m : Machine} :
      Part bounds (.statement (.expression e)) m (.expression e) m
  | first {last : Value} {s : Stmt} {ss : List Stmt} {m : Machine} :
      Part bounds (.statements last (s :: ss)) m (.statement s) m
  | rest {last : Value} {s : Stmt} {ss : List Stmt} {v : Value} {m m' : Machine}
      (h : bounds.statement s m = .ok (.normal v) m') :
      Part bounds (.statements last (s :: ss)) m (.statements v ss) m'
  | inBlock {ss : List Stmt} {m : Machine} :
      Part bounds (.block ss) m (.statements .unit ss)
        { m with environment := m.environment.push }
  | condition {condition : Expr} {body : List Stmt} {otherwise : Alternative} {m : Machine} :
      Part bounds (.conditional (.mk condition body otherwise)) m (.expression condition) m
  | holds {condition : Expr} {body : List Stmt} {otherwise : Alternative} {m m' : Machine}
      (h : bounds.expression condition m = .ok (.bool true) m') :
      Part bounds (.conditional (.mk condition body otherwise)) m (.block body) m'
  | fails {condition : Expr} {body : List Stmt} {otherwise : Alternative} {m m' : Machine}
      (h : bounds.expression condition m = .ok (.bool false) m') :
      Part bounds (.conditional (.mk condition body otherwise)) m (.alternative otherwise) m'
  | otherwise {body : List Stmt} {m : Machine} :
      Part bounds (.alternative (.block body)) m (.block body) m
  | chain {c : Conditional} {m : Machine} :
      Part bounds (.alternative (.chain c)) m (.conditional c) m
  | test {rounds : Nat} {condition : Expr} {body : List Stmt} {m : Machine} :
      Part bounds (.loop (rounds + 1) condition body) m (.expression condition) m
  | round {rounds : Nat} {condition : Expr} {body : List Stmt} {m m' : Machine}
      (h : bounds.expression condition m = .ok (.bool true) m') :
      Part bounds (.loop (rounds + 1) condition body) m (.block body) m'
  | again {rounds : Nat} {condition : Expr} {body : List Stmt} {v : Value} {m m' m'' : Machine}
      (h : bounds.expression condition m = .ok (.bool true) m')
      (h' : bounds.block body m' = .ok (.normal v) m'') :
      Part bounds (.loop (rounds + 1) condition body) m (.loop rounds condition body) m''
  | body {traced : Bool} {f : Function} {vs : List Value} {m m' : Machine}
      (harity : vs.length = f.arity) (hdepth : m.depth < bounds.callDepth)
      (h : f.reportCall traced vs { m with depth := m.depth + 1 } = .ok () m') :
      Part bounds (.call traced f vs) m (.body f vs) m'
  | user {parameters : List Parameter} {ss : List Stmt} {vs : List Value} {m m' : Machine}
      (h : bindAll parameters vs { m with environment := m.environment.push } = .ok () m') :
      Part bounds (.body (.user parameters ss) vs) m (.statements .unit ss) m'
  | firstHalf {first second : Function} {vs : List Value} {m : Machine} :
      Part bounds (.body (.composed first second) vs) m (.call false first vs) m
  | secondHalf {first second : Function} {vs : List Value} {v : Value} {m m' : Machine}
      (h : bounds.call false first vs m = .ok v m') :
      Part bounds (.body (.composed first second) vs) m (.call false second [v]) m'

namespace Task

/-- The calls that are entered by performing a task: the body of a function is in progress as long
as it is evaluated. -/
def calls : Task → Nat
  | body _ _ => 1
  | expression _ | expressions _ | statement _ | statements _ _ | block _ | conditional _
  | alternative _ | loop _ _ _ | call _ _ _ => 0

/-- `Visits bounds t m n t' m'` means that performing `t` in `m` involves performing `t'` in `m'`,
while `n` calls are in progress that were entered on the way. -/
inductive Visits (bounds : Bounds) (t : Task) (m : Machine) : Nat → Task → Machine → Prop where
  | start : Visits bounds t m 0 t m
  | part {n : Nat} {t' t'' : Task} {m' m'' : Machine} (h : Visits bounds t m n t' m')
      (hpart : Part bounds t' m' t'' m'') : Visits bounds t m (n + t''.calls) t'' m''

end Task

/-! ## Calls in progress -/

/-- A part starts with as many calls in progress as the task that it is a part of, and the body of a
function with one more, for which there was room. -/
theorem Part.depth_eq {bounds : Bounds} {t t' : Task} {m m' : Machine}
    (h : Part bounds t m t' m') :
    m'.depth = m.depth + t'.calls ∧ (m.depth ≤ bounds.callDepth → m'.depth ≤ bounds.callDepth) := by
  have hkept {m' : Machine} (h : m'.depth = m.depth) :
      m'.depth = m.depth + 0 ∧ (m.depth ≤ bounds.callDepth → m'.depth ≤ bounds.callDepth) :=
    ⟨h, fun hm => h ▸ hm⟩
  have hexpression {e : Expr} {v : Value} {m m' : Machine} (h : bounds.expression e m = .ok v m') :
      m'.depth = m.depth := ((e.eval_keeps bounds.call_keeps).ok h).depth_eq
  -- No part but the body of a call is evaluated at another depth.
  cases h with
  | assigned | left | casted | operand | inner | callee | head | declared | loop | conditional
  | returned | expression | first | inBlock | condition | otherwise | chain | test
  | firstHalf => exact hkept rfl
  | right h => exact hkept (hexpression h)
  | arguments h => exact hkept (hexpression h)
  | call h h' =>
    have harguments := (Expr.evalAll_keeps bounds.call_keeps _).ok h'
    exact hkept (harguments.depth_eq.trans (hexpression h))
  | tail h => exact hkept (hexpression h)
  | rest h => exact hkept ((Stmt.exec_keeps bounds.call_keeps _).ok h).depth_eq
  | holds h => exact hkept (hexpression h)
  | fails h => exact hkept (hexpression h)
  | round h => exact hkept (hexpression h)
  | again h h' =>
    have hbody := (keeps_inScope (Stmt.execAll_keeps bounds.call_keeps .unit _)).ok h'
    exact hkept (hbody.depth_eq.trans (hexpression h))
  -- Only here a call is entered, and it has been checked that there is room for it.
  | body harity hdepth h =>
    have hreport := ((keeps_reportCall _ _ _).ok h).depth_eq
    exact ⟨hreport, fun _ => by rw [hreport]; exact hdepth⟩
  | user h => exact hkept ((keeps_bindAll _ _).ok h).depth_eq
  | secondHalf h => exact hkept ((bounds.call_keeps _ _ _).ok h).depth_eq

/-- The calls that are in progress are those that the machine counts, and there are never more than
may be. -/
theorem Task.Visits.depth_eq {bounds : Bounds} {t t' : Task} {n : Nat} {m m' : Machine}
    (h : t.Visits bounds m n t' m') :
    m'.depth = m.depth + n ∧ (m.depth ≤ bounds.callDepth → m'.depth ≤ bounds.callDepth) := by
  induction h with
  | start => exact ⟨rfl, id⟩
  | part h hpart ih =>
    obtain ⟨hdepth, hle⟩ := hpart.depth_eq
    refine ⟨?_, fun hm => hle (ih.2 hm)⟩
    rw [hdepth, ih.1, Nat.add_assoc]

end Brisk
