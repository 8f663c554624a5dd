import Brisk.Proofs.Evaluation.InStep

/-!
# Programs in a scope of their own

A program can be executed in a scope of its own, which is closed afterwards, or in the scope that is
innermost, where its declarations stay. The two ways differ in the stack of scopes only: where the
one has two scopes, the other has them joined to one, in which what the program declares comes
first (`Scope.join`). Scopes that blocks and calls open further in are the same in both.

Looking up a name and giving it another value cannot tell a stack from a joined one
(`Scope.findSome?_join`, `Environment.assignIn_join`). A declaration can, if the outer of the two
scopes binds its name. As long as the program declares no such name at its top, both ways come to
the same result (`Bounds.run_isolated`).
-/

namespace Brisk

open Eval

/-! ## Joining two scopes -/

namespace Scope

/-- A stack of scopes in which two that follow each other are joined, with the given number of
scopes above them. -/
def join : Nat → List Scope → List Scope
  | 0, inner :: outer :: rest => (inner ++ outer) :: rest
  | n + 1, scope :: scopes => scope :: join n scopes
  | 0, [scope] => [scope]
  | _, [] => []

/-- Below the given number of scopes there are two that bind different names: the inner one binds
free names only, and the outer one exactly those that are not free. -/
def Split (Free : String → Prop) : Nat → List Scope → Prop
  | 0, inner :: outer :: _ =>
    (∀ name, inner.lookup name ≠ none → Free name) ∧ ∀ name, outer.lookup name = none ↔ Free name
  | n + 1, _ :: scopes => Split Free n scopes
  | 0, [_] | _, [] => False

/-- In two joined scopes a name is set where it is bound first. -/
theorem set_append (inner outer : Scope) (name : String) (v : Value) :
    Scope.set name v (inner ++ outer) =
      if inner.lookup name = none then inner ++ outer.set name v
      else inner.set name v ++ outer := by
  -- The first binding of the name is changed, which is in the inner scope if it is bound there.
  induction inner with
  | nil => rfl
  | cons entry inner ih =>
    obtain ⟨x, b⟩ := entry
    rw [List.cons_append, Scope.set, Scope.set, ih, List.lookup_cons]
    by_cases hx : x = name
    · simp [hx]
    · have hx' : (name == x) = false := beq_eq_false_iff_ne.mpr (Ne.symm hx)
      rw [if_neg hx, if_neg hx, hx']
      simp only
      split
      · rfl
      · rfl

/-- The innermost binding of a name stays the innermost. -/
theorem findSome?_join (name : String) (n : Nat) (scopes : List Scope) :
    (join n scopes).findSome? (·.lookup name) = scopes.findSome? (·.lookup name) := by
  -- The induction is on the scopes that stand in front of the two that are joined.
  induction n generalizing scopes with
  | zero =>
    match scopes with
    | [] | [_] => rfl
    | inner :: outer :: rest =>
      rw [join, List.findSome?_cons, List.findSome?_cons, List.findSome?_cons, List.lookup_append]
      cases inner.lookup name <;> rfl
  | succ n ih =>
    cases scopes with
    | nil => rfl
    | cons scope scopes => rw [join, List.findSome?_cons, List.findSome?_cons, ih]

/-- Scopes that bind the same names as before are split as before. -/
theorem Split.of_frame {Free : String → Prop} {n : Nat} {scopes scopes' : List Scope}
    (h : Split Free n scopes) (hframe : List.Forall₂ (Frame []) scopes scopes') :
    Split Free n scopes' := by
  induction n generalizing scopes scopes' with
  -- A frame changes no name that a scope binds, so what is bound apart stays apart.
  | zero =>
    obtain _ | ⟨hinner, _ | ⟨houter, -⟩⟩ := hframe
    · exact h
    · exact h.elim
    · obtain ⟨hfree, hbound⟩ := h
      refine ⟨fun name hname => hfree name ?_, fun name => ?_⟩
      · exact fun hnone => hname ((hinner.lookup_eq_none_iff name).mpr hnone)
      · exact (houter.lookup_eq_none_iff name).trans (hbound name)
  | succ n ih =>
    obtain _ | ⟨-, htail⟩ := hframe
    · exact h
    · exact ih h htail

end Scope

namespace Environment

open Scope (join Split)

/-- A name is given another value in a joined stack like in the stack itself. -/
theorem assignIn_join (name : String) (v : Value) (n : Nat) (scopes : List Scope) :
    assignIn name v (join n scopes) = (assignIn name v scopes).map (join n) := by
  induction n generalizing scopes with
  | zero =>
    -- At the joined scopes the name is looked for in the inner one first, as it is without joining.
    match scopes with
    | [] => rfl
    | [scope] =>
      rw [join, assignIn]
      cases scope.lookup name with
      | some b => cases hb : b.mutable <;> simp [hb, Except.map, join]
      | none => rfl
    | inner :: outer :: rest =>
      rw [join, assignIn, assignIn, assignIn, List.lookup_append, Scope.set_append]
      cases hinner : inner.lookup name with
      | some b => cases hb : b.mutable <;> simp [hb, Except.map, join]
      | none =>
        cases outer.lookup name with
        | some b => cases hb : b.mutable <;> simp [hb, Except.map, join]
        | none => cases assignIn name v rest <;> simp [Except.map, join]
  | succ n ih =>
    cases scopes with
    | nil => rfl
    | cons scope scopes =>
      rw [join, assignIn, assignIn, ih]
      cases scope.lookup name with
      | some b => cases hb : b.mutable <;> simp [hb, Except.map, join]
      | none => cases assignIn name v scopes <;> rfl

/-- The second environment has joined two scopes of the first, with the given number of scopes above
them. -/
structure Joined (Free : String → Prop) (n : Nat) (env env' : Environment) : Prop where
  scopes_eq : env'.scopes = join n env.scopes
  split : Split Free n env.scopes

namespace Joined

variable {Free : String → Prop} {n : Nat} {env env' : Environment}

/-- Closing a scope leaves environments joined as long as it is above the one that has been
joined. -/
theorem pop (h : Joined Free (n + 1) env env') : Joined Free n env.pop env'.pop := by
  obtain ⟨scopes⟩ := env
  obtain ⟨hscopes, hsplit⟩ := h
  cases scopes with
  | nil => exact hsplit.elim
  | cons scope scopes => exact ⟨congrArg List.tail hscopes, hsplit⟩

/-- The same value is found for each name. -/
theorem lookup_eq (h : Joined Free n env env') (name : String) :
    env'.lookup name = env.lookup name := by
  unfold lookup binding?
  rw [h.scopes_eq, Scope.findSome?_join]

/-- A free name is declared in one environment exactly if it is in the other. Further in than the
scopes that are joined, any name may be declared. -/
theorem declare? (h : Joined Free n env env') {name : String} (hfree : n = 0 → Free name)
    (v : Value) (mutable : Bool) :
    (∃ env₁ env₁', env.declare? name v mutable = some env₁ ∧
      env'.declare? name v mutable = some env₁' ∧ Joined Free n env₁ env₁') ∨
    (env.declare? name v mutable = none ∧ env'.declare? name v mutable = none) := by
  obtain ⟨scopes⟩ := env
  obtain ⟨scopes'⟩ := env'
  obtain ⟨hscopes, hsplit⟩ := h
  obtain rfl : scopes' = join n scopes := hscopes
  unfold Environment.declare?
  match n, scopes, hsplit with
  | n + 1, scope :: scopes, hsplit =>
    simp only [join]
    cases scope.lookup name with
    | some b => exact .inr ⟨rfl, rfl⟩
    | none => exact .inl ⟨_, _, rfl, rfl, rfl, hsplit⟩
  | 0, inner :: outer :: rest, ⟨hinner, houter⟩ =>
    -- The outer scope does not bind the name, so only the inner one matters.
    simp only [join, List.lookup_append, (houter name).mpr (hfree rfl), Option.or_none]
    cases inner.lookup name with
    | some b => exact .inr ⟨rfl, rfl⟩
    | none =>
      refine .inl ⟨_, _, rfl, rfl, rfl, fun x hx => ?_, houter⟩
      rw [List.lookup_cons] at hx
      by_cases hname : x = name
      · rw [hname]
        exact hfree rfl
      · rw [beq_eq_false_iff_ne.mpr hname] at hx
        exact hinner x hx

/-- A name is given another value in one environment exactly if it is in the other. -/
theorem assign (h : Joined Free n env env') (name : String) (v : Value) :
    (∃ env₁ env₁', env.assign name v = .ok env₁ ∧ env'.assign name v = .ok env₁' ∧
      Joined Free n env₁ env₁') ∨
    ∃ e, env.assign name v = .error e ∧ env'.assign name v = .error e := by
  unfold Environment.assign
  rw [h.scopes_eq, assignIn_join]
  cases hscopes : assignIn name v env.scopes with
  | error e => exact .inr ⟨e, rfl, rfl⟩
  | ok scopes => exact .inl ⟨⟨scopes⟩, _, rfl, rfl, rfl, h.split.of_frame (assignIn_frame hscopes)⟩

end Joined

/-- No operation tells joined environments apart, as long as only free names are declared in the
scope that has been joined. -/
theorem simulates_joined (Free : String → Prop) :
    Simulates (Value.retrace true) Free (Joined Free) where
  push h := ⟨congrArg ([] :: ·) h.scopes_eq, h.split⟩
  pop h := h.pop
  lookup h name := by
    rw [h.lookup_eq name, funext Value.retrace_same, Option.map_id']
  declare h _ hfree v mutable := by
    rw [v.retrace_same]
    exact h.declare? hfree v mutable
  assign h name v := by
    rw [v.retrace_same]
    exact h.assign name v

end Environment

/-! ## Isolated programs -/

/-- Statements are executed in the same way in joined environments, as long as they only declare
free names. -/
theorem Bounds.statements_joined (bounds : Bounds) {Free : String → Prop} {ss : List Stmt}
    (hfree : ∀ name ∈ ss.flatMap Stmt.declared, Free name) :
    InStep (Machine.Related (Environment.Joined Free 0) (fun out out' => out' = out)) id
      (bounds.statements ss) (bounds.statements ss) := by
  have h := bounds.statements_inStep (Environment.simulates_joined Free) Output.tracks_eq 0 ss
    fun _ => hfree
  rwa [Stmt.listRetrace_same, funext Flow.retrace_same] at h

/-- The machine that is left when a program was executed in a scope of its own, and the one that is
left when it was executed in the scope of the session. The same was written, all scopes further out
are the same, and the scope of the session binds in the first the names that it did before, and in
both the same values to them. -/
structure Machine.Isolated (session : Scope) (m m' : Machine) : Prop where
  output_eq : m'.output = m.output
  depth_eq : m'.depth = m.depth
  scopes : ∃ kept kept' outer, m.environment.scopes = kept :: outer ∧
    m'.environment.scopes = kept' :: outer ∧
    (∀ name, kept.lookup name = none ↔ session.lookup name = none) ∧
    ∀ name, session.lookup name ≠ none → kept'.lookup name = kept.lookup name

/-- Closing the inner one of two scopes leaves a machine as an isolated program does. -/
theorem Machine.isolated_of_joined {session : Scope} {m m' : Machine}
    (h : m.Related (Environment.Joined (session.lookup · = none) 0) (fun out out' => out' = out)
      m') :
    Machine.Isolated session { m with environment := m.environment.pop } m' := by
  obtain ⟨⟨hscopes, hsplit⟩, hout, hdepth⟩ := h
  generalize hs : m.environment.scopes = scopes at hscopes hsplit
  match scopes, hsplit with
  | inner :: outer :: rest, ⟨hinner, houter⟩ =>
    refine ⟨hout, hdepth, outer, inner ++ outer, rest, congrArg List.tail hs, hscopes, houter,
      fun name hname => ?_⟩
    -- What the session binds is not declared by the program.
    have hnone : inner.lookup name = none := by
      by_contra hsome
      exact hname (hinner name hsome)
    rw [List.lookup_append, hnone, Option.none_or]

/-- The value of a program in a scope of its own is that of its statements. -/
theorem Bounds.run_eq (bounds : Bounds) (p : Program) :
    bounds.run p = do return (← inScope (bounds.statements p.statements)).value := by
  unfold run program block
  rw [bind_assoc]
  rfl

/-- Whether a program is executed in a scope of its own or in the scope of the session makes no
difference, as long as it declares no name at its top that the scope of the session binds. Both ways
end with the same value or with the same error, running out of rounds included. They write the same,
leave the same values to all names that were bound, and in a scope of its own the program binds no
other name for good. -/
theorem Bounds.run_isolated (bounds : Bounds) {p : Program} {m : Machine} {session : Scope}
    {outer : List Scope} (hscopes : m.environment.scopes = session :: outer)
    (hfresh : ∀ name ∈ p.statements.flatMap Stmt.declared, session.lookup name = none) :
    Alike (Machine.Isolated session) id (bounds.run p m) (bounds.runInSession p m) := by
  -- The new scope is empty, so joining it with the session's changes nothing.
  have hjoined : m.environment.push.Joined (session.lookup · = none) 0 m.environment := by
    obtain ⟨⟨scopes⟩, out, depth⟩ := m
    obtain rfl : scopes = session :: outer := hscopes
    exact ⟨rfl, fun name hname => absurd rfl hname, fun name => Iff.rfl⟩
  have halike := bounds.statements_joined hfresh { m with environment := m.environment.push } m
    ⟨hjoined, rfl, rfl⟩
  rw [bounds.run_eq]
  unfold runInSession
  generalize hresult : bounds.statements p.statements { m with environment := m.environment.push } =
    result, hresult' : bounds.statements p.statements m = result' at halike
  cases halike with
  | @ok flow m₁ m₁' h =>
    -- Closing the scope of the program removes what the session has kept.
    have hscope : inScope (bounds.statements p.statements) m =
        .ok flow { m₁ with environment := m₁.environment.pop } := by
      unfold inScope
      rw [hresult]
    rw [bind_of_ok hscope, bind_of_ok hresult']
    exact .ok (Machine.isolated_of_joined h)
  | @error e m₁ m₁' h =>
    have hscope : inScope (bounds.statements p.statements) m =
        .error e { m₁ with environment := m₁.environment.pop } := by
      unfold inScope
      rw [hresult]
    rw [bind_of_error hscope, bind_of_error hresult']
    exact .error (Machine.isolated_of_joined h)

/-- A program that declares a name and gives another value to a name of the session. -/
theorem Bounds.run_isolated_assign :
    ∃ v m₁ m₁', (Bounds.mk 4 4).run ⟨[.declare "y" false (.name "x"),
          .expression (.assign "x" (.binary .add (.name "y") (.literal (.int 1))))]⟩
        ⟨⟨[[("x", ⟨.int 1, true⟩)], []]⟩, .unlimited, 0⟩ = .ok v m₁ ∧
      (Bounds.mk 4 4).runInSession ⟨[.declare "y" false (.name "x"),
          .expression (.assign "x" (.binary .add (.name "y") (.literal (.int 1))))]⟩
        ⟨⟨[[("x", ⟨.int 1, true⟩)], []]⟩, .unlimited, 0⟩ = .ok v m₁' ∧
      Machine.Isolated [("x", ⟨.int 1, true⟩)] m₁ m₁' := by
  have halike := (Bounds.mk 4 4).run_isolated
    (p := ⟨[.declare "y" false (.name "x"),
      .expression (.assign "x" (.binary .add (.name "y") (.literal (.int 1))))]⟩)
    (m := ⟨⟨[[("x", ⟨.int 1, true⟩)], []]⟩, .unlimited, 0⟩) rfl (by decide)
  -- The value that the run ends with shows that it is no error.
  have hok : (match (Bounds.mk 4 4).run ⟨[.declare "y" false (.name "x"),
        .expression (.assign "x" (.binary .add (.name "y") (.literal (.int 1))))]⟩
        ⟨⟨[[("x", ⟨.int 1, true⟩)], []]⟩, .unlimited, 0⟩ with
      | .ok v _ => v.text
      | .error _ _ => "") = "2" := by decide +kernel
  generalize (Bounds.mk 4 4).run _ _ = result, (Bounds.mk 4 4).runInSession _ _ = result'
    at halike hok ⊢
  cases halike with
  | @ok v m₁ m₁' h => exact ⟨v, m₁, m₁', rfl, rfl, h⟩
  | error h => exact absurd hok (by simp)

end Brisk
