import Brisk.Proofs.Evaluation.InStep

/-!
# Traced calls only observe

A program and the program in which all traced calls are plain ones are evaluated in step: they end
with the same error, or with values that differ at most in the traced calls in the bodies of
functions, and what the second has written is what the first has written without the traces. This
needs an output that never fails, since a trace can fill one up.

The relation of environments is that all values are the same up to traced calls
(`Environment.simulates_mapBodies`), and the relation of outputs compares what has been written
since two given outputs (`Output.tracks_silenced`). It also shows that an evaluation only adds to
the output, and with that where a traced call writes its two lines (`Bounds.call_traced`).
-/

namespace Brisk

open Eval

/-! ## Outputs without traces -/

/-- What has been written since two outputs, neither of which is limited: the same to both, but for
the traces, which are written to the first only. -/
def Output.Silenced (start start' out out' : Output) : Prop :=
  ∃ texts, out = ⟨start.written ++ texts, none⟩ ∧
    out' = ⟨start'.written ++ texts.filter (·.origin = .print), none⟩

namespace Output

variable {start start' out out' : Output}

/-- Nothing has been written yet. -/
theorem silenced_self (h : start.room = none) (h' : start'.room = none) :
    Silenced start start' start start' := by
  obtain ⟨written, room⟩ := start
  obtain ⟨written', room'⟩ := start'
  obtain rfl : room = none := h
  obtain rfl : room' = none := h'
  exact ⟨#[], by simp, by simp⟩

/-- What is printed goes to both outputs, and a trace goes to the first only, which has room for
it. -/
theorem tracks_silenced (start start' : Output) :
    Output.Tracks false (Silenced start start') where
  both := by
    -- The two outputs have had the same texts added since they started.
    rintro _ _ ⟨texts, rfl, rfl⟩ origin horigin text
    obtain rfl : origin = .print := horigin.resolve_left Bool.false_ne_true
    refine ⟨rfl, texts.push ⟨.print, Text.bytes text⟩, ?_, ?_⟩
    · simp [write]
    · simp [write]
  first := by
    -- The texts of a trace are added on one side only, where they are filtered out.
    rintro _ _ ⟨texts, rfl, rfl⟩ origin - horigin text
    refine ⟨rfl, texts.push ⟨origin, Text.bytes text⟩, ?_, ?_⟩
    · simp [write]
    · simp [horigin]

end Output

/-- Machines that differ by traced calls and by the traces that have been written since two given
outputs. -/
abbrev Machine.Silenced (start start' : Output) : Machine → Machine → Prop :=
  Machine.Related (fun env env' => env' = env.retrace false) (Output.Silenced start start')

/-- Evaluations that differ by traces. They start from environments that are the same up to traced
calls, with equally many calls in progress, and with outputs that never fail. Then they end with the
same error or with values `a` and `g a`, in environments that are the same up to traced calls, and
the second has written what the first has, without the traces. -/
def Eval.Silences {α β : Type} (g : α → β) (action : Eval α) (action' : Eval β) : Prop :=
  ∀ m m' : Machine, m'.environment = m.environment.retrace false → m'.depth = m.depth →
    m.output.room = none → m'.output.room = none →
    Alike (Machine.Silenced m.output m'.output) g (action m) (action' m')

namespace Eval

variable {α β : Type} {g : α → β} {action : Eval α} {action' : Eval β}

/-- Evaluations that are in step from any two outputs differ by traces. -/
theorem silences_of_inStep
    (h : ∀ start start', InStep (Machine.Silenced start start') g action action') :
    Silences g action action' :=
  fun m m' henv hdepth hroom hroom' =>
    h m.output m'.output m m' ⟨henv, Output.silenced_self hroom hroom', hdepth⟩

/-- An evaluation that can be silenced only adds to an output that never fails. -/
theorem Silences.written (h : Silences g action action') {m : Machine}
    (hroom : m.output.room = none) :
    ∃ texts, (action.after m).output = ⟨m.output.written ++ texts, none⟩ := by
  have halike := h m { m with environment := m.environment.retrace false } rfl rfl hroom hroom
  unfold after
  generalize action m = result, action' _ = result' at halike
  cases halike with
  | ok hm | error hm =>
    obtain ⟨texts, hout, -⟩ := hm.output
    exact ⟨texts, hout⟩

end Eval

/-- Calls are in step when they are silenced. -/
theorem Function.call_silenced (bounds : Bounds) (depth : Nat) (start start' : Output) :
    CallsInStep false (fun _ => Machine.Silenced start start') (Function.call bounds depth)
      (Function.call bounds depth) :=
  Function.call_inStep (Environment.simulates_mapBodies _) (Output.tracks_silenced start start')
    bounds depth

namespace Bounds

variable (bounds : Bounds)

/-- Calls are in step when they are silenced, as deep as there is room for them. -/
theorem call_silenced (start start' : Output) :
    CallsInStep false (fun _ => Machine.Silenced start start') bounds.call bounds.call :=
  bounds.call_inStep (Environment.simulates_mapBodies _) (Output.tracks_silenced start start')

/-- Statements are in step when they are silenced. -/
theorem statements_silenced (start start' : Output) (ss : List Stmt) :
    InStep (Machine.Silenced start start') (Flow.retrace false) (bounds.statements ss)
      (bounds.statements (Stmt.listRetrace false ss)) :=
  bounds.statements_inStep (Environment.simulates_mapBodies _)
    (Output.tracks_silenced start start') 0 ss fun _ _ _ => trivial

/-- Blocks are in step when they are silenced. -/
theorem block_silenced (start start' : Output) (ss : List Stmt) :
    InStep (Machine.Silenced start start') (Flow.retrace false) (bounds.block ss)
      (bounds.block (Stmt.listRetrace false ss)) :=
  inStep_inScope (Environment.simulates_mapBodies _) (n := 0)
    (bounds.statements_silenced start start' ss)

/-- Programs are in step when they are silenced. -/
theorem program_silenced (start start' : Output) (p : Program) :
    InStep (Machine.Silenced start start') (Flow.retrace false) (bounds.program p)
      (bounds.program (p.retrace false)) := by
  refine inStep_return (bounds.block_silenced start start' p.statements) fun flow => ?_
  rw [flow.value_mapBodies]
  rfl

end Bounds

/-! ## Traced calls -/

/-- The chunk that a line is written as. -/
def Chunk.line (origin : Origin) (line : String) : Chunk := ⟨origin, Text.bytes (line ++ "\n")⟩

/-- An output that never fails gets one more chunk for a line. -/
theorem Eval.writeLine_of_unlimited {m : Machine} (h : m.output.room = none) (origin : Origin)
    (line : String) :
    writeLine origin line m =
      .ok () { m with output := ⟨m.output.written.push (.line origin line), none⟩ } := by
  unfold writeLine Output.write
  rw [h]
  rfl

/-- A call is evaluated by evaluating its callee and its arguments, and calling the function. -/
theorem Bounds.expression_call {bounds : Bounds} {callee : Expr} {arguments : List Expr}
    {f : Function} {vs : List Value} {m m₁ m₂ : Machine}
    (hcallee : bounds.expression callee m = .ok (.function f) m₁)
    (harguments : Expr.evalAll bounds.call bounds.rounds arguments m₁ = .ok vs m₂)
    (traced : Bool) :
    bounds.expression (.call traced callee arguments) m = bounds.call traced f vs m₂ := by
  unfold expression at hcallee ⊢
  rw [Expr.eval, bind_of_ok hcallee]
  exact bind_of_ok harguments

/-- The body of a function only adds to an output that never fails. -/
theorem Function.enter_written (bounds : Bounds) (depth : Nat) (f : Function) (vs : List Value)
    {m : Machine} (hroom : m.output.room = none) :
    ∃ texts, ((f.enter (Function.call bounds depth) bounds.rounds vs).after m).output =
      ⟨m.output.written ++ texts, none⟩ := by
  have hbody : ∀ start start', InStep (Machine.Silenced start start') (Value.retrace false) _ _ :=
    fun start start' => f.enter_inStep (Environment.simulates_mapBodies _)
      (Output.tracks_silenced start start') (Function.call_silenced bounds depth start start')
      bounds.rounds 0 vs
  exact (silences_of_inStep hbody).written hroom

/-- The machine in which the body of a function is evaluated when a traced call has reported its
arguments. -/
def Machine.reported (m : Machine) (f : Function) (vs : List Value) : Machine :=
  ⟨m.environment, ⟨m.output.written.push (.line .callTrace (f.callLine vs)), none⟩, m.depth + 1⟩

/-- A traced call with as many arguments as the function takes, and with room for a further call,
writes a line before the body of the function is evaluated, and one after if that comes to a
result. -/
theorem Bounds.call_traced (bounds : Bounds) {f : Function} {vs : List Value} {m : Machine}
    (harity : vs.length = f.arity) (hdepth : m.depth < bounds.callDepth)
    (hroom : m.output.room = none) :
    match f.enter (Function.call bounds (bounds.callDepth - (m.depth + 1))) bounds.rounds vs
      (m.reported f vs) with
    | .ok v m' => bounds.call true f vs m = .ok v ⟨m'.environment,
        ⟨m'.output.written.push (.line .returnTrace (Function.returnLine v)), none⟩, m.depth⟩
    | .error e m' => bounds.call true f vs m = .error e ⟨m'.environment, m'.output, m.depth⟩ := by
  have hleft : bounds.callDepth - m.depth = bounds.callDepth - (m.depth + 1) + 1 := by omega
  have hreported : writeLine .callTrace (f.callLine vs) { m with depth := m.depth + 1 } =
      .ok () (m.reported f vs) :=
    writeLine_of_unlimited (m := { m with depth := m.depth + 1 }) hroom _ _
  -- The body of the call ends in its frame, and counting the call off restores the depth.
  have hkeeps : Keeps (Machine.Frame [])
      (f.enter (Function.call bounds (bounds.callDepth - (m.depth + 1))) bounds.rounds vs) :=
    f.enter_keeps (Function.call_keeps bounds (bounds.callDepth - (m.depth + 1))) vs
  obtain ⟨texts, hwritten⟩ := f.enter_written bounds (bounds.callDepth - (m.depth + 1)) vs
    (m := m.reported f vs) rfl
  unfold Bounds.call
  rw [hleft, Function.call, if_pos harity]
  unfold inCall Function.enterTraced
  rw [if_pos rfl, bind_of_ok hreported]
  -- Only a call that ends with a value writes the second line.
  cases hbody : f.enter (Function.call bounds (bounds.callDepth - (m.depth + 1))) bounds.rounds vs
    (m.reported f vs) with
  | ok v m' =>
    have hdepth' : m'.depth - 1 = m.depth := by
      rw [(hkeeps.ok hbody).depth_eq]
      rfl
    unfold after at hwritten
    rw [hbody] at hwritten
    -- The output is as unlimited as before, so there is room for the line.
    have hroom' : m'.output.room = none := congrArg Output.room hwritten
    simp only
    rw [bind_of_ok hbody, bind_of_ok (writeLine_of_unlimited hroom' _ _)]
    show EStateM.Result.ok v _ = _
    rw [← hdepth']
  | error e m' =>
    have hdepth' : m'.depth - 1 = m.depth := by
      rw [(hkeeps.error hbody).depth_eq]
      rfl
    simp only
    rw [bind_of_error hbody, ← hdepth']

/-! ## Traces only observe -/

/-- Traced calls only observe. An evaluation and the one in which all traced calls are plain ones,
in bodies of functions too, end with the same error, running out of rounds included, or with the
same value up to traced calls in bodies of functions. They leave the same environment up to these,
and the second has written what the first has written without the traces. Moreover, a traced call
that may be made writes one line when its callee and its arguments have been evaluated and before
its body writes anything, and one line after everything that its body writes if that comes to a
result. -/
theorem traces_only_observe (bounds : Bounds) :
    (∀ e : Expr, Silences (Value.retrace false) (bounds.expression e)
      (bounds.expression (e.retrace false))) ∧
    (∀ s : Stmt, Silences (Flow.retrace false) (bounds.statement s)
      (bounds.statement (s.retrace false))) ∧
    (∀ ss : List Stmt, Silences (Flow.retrace false) (bounds.statements ss)
      (bounds.statements (Stmt.listRetrace false ss))) ∧
    (∀ ss : List Stmt, Silences (Flow.retrace false) (bounds.block ss)
      (bounds.block (Stmt.listRetrace false ss))) ∧
    (∀ p : Program, Silences (Flow.retrace false) (bounds.program p)
      (bounds.program (p.retrace false))) ∧
    (∀ p : Program, Silences (Value.retrace false) (bounds.run p)
      (bounds.run (p.retrace false))) ∧
    (∀ p : Program, Silences (Value.retrace false) (bounds.runInSession p)
      (bounds.runInSession (p.retrace false))) ∧
    (∀ (callee : Expr) (arguments : List Expr) (f : Function) (vs : List Value)
      (m m₁ m₂ : Machine), bounds.expression callee m = .ok (.function f) m₁ →
      Expr.evalAll bounds.call bounds.rounds arguments m₁ = .ok vs m₂ → vs.length = f.arity →
      m₂.depth < bounds.callDepth → m₂.output.room = none →
      let call := Function.call bounds (bounds.callDepth - (m₂.depth + 1))
      let body := f.enter call bounds.rounds vs
      ∃ texts, (body.after (m₂.reported f vs)).output =
          ⟨m₂.output.written.push (.line .callTrace (f.callLine vs)) ++ texts, none⟩ ∧
        match body (m₂.reported f vs) with
        | .ok v m' => bounds.expression (.call true callee arguments) m = .ok v ⟨m'.environment,
            ⟨m'.output.written.push (.line .returnTrace (Function.returnLine v)), none⟩, m₂.depth⟩
        | .error e m' => bounds.expression (.call true callee arguments) m =
            .error e ⟨m'.environment, m'.output, m₂.depth⟩) := by
  -- The environments need not be told apart by scope, as all names are free everywhere.
  have hE := Environment.simulates_mapBodies (Stmt.listRetrace false)
  refine ⟨fun e => silences_of_inStep fun o o' => e.eval_inStep hE (bounds.call_silenced o o') 0,
    fun s => silences_of_inStep fun o o' => s.exec_inStep hE (bounds.call_silenced o o') 0 ?_,
    fun ss => silences_of_inStep fun o o' => bounds.statements_silenced o o' ss,
    fun ss => silences_of_inStep fun o o' => bounds.block_silenced o o' ss,
    fun p => silences_of_inStep fun o o' => bounds.program_silenced o o' p,
    fun p => silences_of_inStep fun o o' => ?_, fun p => silences_of_inStep fun o o' => ?_, ?_⟩
  · exact fun _ _ _ => trivial
  · exact inStep_return (bounds.program_silenced o o' p) fun flow => flow.value_mapBodies _
  · exact inStep_return (bounds.statements_silenced o o' p.statements)
      fun flow => flow.value_mapBodies _
  · intro callee arguments f vs m m₁ m₂ hcallee harguments harity hdepth hroom
    obtain ⟨texts, hwritten⟩ := f.enter_written bounds (bounds.callDepth - (m₂.depth + 1)) vs
      (m := m₂.reported f vs) rfl
    refine ⟨texts, hwritten, ?_⟩
    rw [bounds.expression_call hcallee harguments]
    exact bounds.call_traced harity hdepth hroom

/-- A traced call of a function that prints its argument writes three lines. -/
theorem traces_only_observe_echo :
    ∃ v m', (Bounds.mk 4 4).expression (.call true
        (.lambda [⟨"a", false⟩] [.expression (.call false (.name "print") [.name "a"])])
        [.literal (.int 1)]) ⟨.initial, .unlimited, 0⟩ = .ok v m' ∧
      m'.output.written = #[.line .callTrace "[debug] call: a = 1", .line .print "1",
        .line .returnTrace "[debug] return: ()"] := by
  obtain ⟨texts, -, hcall⟩ := (traces_only_observe ⟨4, 4⟩).2.2.2.2.2.2.2
    (.lambda [⟨"a", false⟩] [.expression (.call false (.name "print") [.name "a"])])
    [.literal (.int 1)]
    (.user [⟨"a", false⟩] [.expression (.call false (.name "print") [.name "a"])]) [.int 1]
    ⟨.initial, .unlimited, 0⟩ _ _ rfl rfl rfl (by decide) rfl
  have hbody : (match Function.enter (Function.call ⟨4, 4⟩ 3) 4 [.int 1]
        (.user [⟨"a", false⟩] [.expression (.call false (.name "print") [.name "a"])])
        (Machine.reported ⟨.initial, .unlimited, 0⟩
          (.user [⟨"a", false⟩] [.expression (.call false (.name "print") [.name "a"])])
          [.int 1]) with
      | .ok v m' => some (Function.returnLine v, m'.output.written)
      | .error _ _ => none) = some ("[debug] return: ()",
        #[.line .callTrace "[debug] call: a = 1", .line .print "1"]) := by decide +kernel
  simp only at hcall
  split at hcall
  · next v m' hok =>
    rw [hok] at hbody
    obtain ⟨hline, hwritten⟩ := Prod.mk.inj (Option.some.inj hbody)
    refine ⟨v, _, hcall, ?_⟩
    simp only
    rw [hline, hwritten]
    rfl
  · next e m' herror =>
    rw [herror] at hbody
    exact absurd hbody (by simp)

end Brisk
