import Brisk.Proofs.Parse.Append
import Brisk.Proofs.Session.Frame

/-!
# A session in pieces

A source may be cut into pieces that a session evaluates one after another. If each piece can be
parsed on its own and all but the last end with a line feed, the whole source is parsed to the
statements of the pieces in turn (`Program.parse_flatten`), and evaluating it ends like evaluating
the pieces does (`Session.eval_flatten`): with what the last piece leaves, or with the first error.

Statements that run to their end hand on a value to those behind them, who have it as their own only
if there are none. So but for a value that does not matter, the statements behind pieces that
complete start where the next piece starts (`Session.CompletesAll.execAll_eq`).
-/

namespace Brisk

open Eval

namespace Stmt

variable {call : Call} {rounds : Nat} {ss : List Stmt} {m m' : Machine}

/-- Statements behind others are executed if none of those leaves, and take over their value. -/
theorem execAll_append (call : Call) (rounds : Nat) (last : Value) (ss ss' : List Stmt) :
    execAll call rounds last (ss ++ ss') = (do
      match ← execAll call rounds last ss with
      | .normal v => execAll call rounds v ss'
      | .leave v => return .leave v) := by
  induction ss generalizing last with
  | nil => rw [List.nil_append, execAll, pure_bind]
  | cons s ss ih =>
    rw [List.cons_append, execAll, execAll, bind_assoc]
    refine bind_congr fun flow => ?_
    cases flow with
    | normal v => exact ih v
    | leave v => simp only [pure_bind]

/-- Statements that go on are followed by further ones. -/
theorem execAll_append_of_normal {last v : Value}
    (h : execAll call rounds last ss m = .ok (.normal v) m') (ss' : List Stmt) :
    execAll call rounds last (ss ++ ss') m = execAll call rounds v ss' m' := by
  rw [execAll_append, bind_of_ok h]

/-- Statements that fail are not followed by anything. -/
theorem execAll_append_of_error {last : Value} {e : Stop}
    (h : execAll call rounds last ss m = .error e m') (ss' : List Stmt) :
    execAll call rounds last (ss ++ ss') m = .error e m' := by
  rw [execAll_append, bind_of_error h]

/-- The value from before the statements is theirs only if there is no statement. -/
theorem execAll_of_ne_nil (h : ss ≠ []) (last last' : Value) :
    execAll call rounds last ss = execAll call rounds last' ss := by
  cases ss with
  | nil => exact absurd rfl h
  | cons s ss => rw [execAll, execAll]

/-- Statements run to their end whatever the value from before them is. -/
theorem execAll_normal {last v : Value} (h : execAll call rounds last ss m = .ok (.normal v) m')
    (last' : Value) :
    ∃ v', execAll call rounds last' ss m = .ok (.normal v') m' ∧ (ss ≠ [] → v' = v) := by
  by_cases hss : ss = []
  · subst hss
    rw [execAll] at h
    obtain ⟨-, rfl⟩ := EStateM.Result.ok.inj h
    exact ⟨last', by rw [execAll]; rfl, fun hne => absurd rfl hne⟩
  · exact ⟨v, (congrFun (execAll_of_ne_nil hss last' last) m).trans h, fun _ => rfl⟩

/-- Statements fail in the same way whatever the value from before them is. -/
theorem execAll_error {last : Value} {e : Stop} (h : execAll call rounds last ss m = .error e m')
    (last' : Value) : execAll call rounds last' ss m = .error e m' := by
  have hss : ss ≠ [] := by
    rintro rfl
    rw [execAll] at h
    cases h
  exact (congrFun (execAll_of_ne_nil hss last' last) m).trans h

end Stmt

/-- Bytes that can be read to their end. -/
def Source.whole (bytes : List UInt8) : Source := .ofBytes bytes .endOfFile

namespace Session

variable {session : Session} {src : Source} {p : Program}

/-- Whether a source can be parsed and its statements run to their end: none of them fails, and none
at its top leaves. -/
def Completes (session : Session) (src : Source) : Prop :=
  ∃ p v m, session.parse src = .ok p ∧
    session.bounds.statements p.statements session.machine = .ok (.normal v) m

instance (session : Session) (src : Source) : Decidable (session.Completes src) :=
  match hp : session.parse src with
  | .error _ => isFalse fun ⟨_, _, _, hok, _⟩ => nomatch hp.symm.trans hok
  | .ok p =>
    match hss : session.bounds.statements p.statements session.machine with
    | .ok (.normal v) m => isTrue ⟨p, v, m, hp, hss⟩
    | .ok (.leave _) _ | .error _ _ => isFalse fun ⟨_, _, _, hok, hnormal⟩ => by
      obtain rfl := Except.ok.inj (hp.symm.trans hok)
      exact nomatch hss.symm.trans hnormal

/-- Whether sources complete, each in the session that those before it leave. -/
def CompletesAll : Session → List (List UInt8) → Prop
  | _, [] => True
  | session, bytes :: sources =>
    session.Completes (.whole bytes) ∧ CompletesAll (session.eval (.whole bytes)).2 sources

/-- The session that sources leave that are evaluated one after another. -/
def evalAll (session : Session) (sources : List (List UInt8)) : Session :=
  session.steps (sources.map fun bytes => .eval (.whole bytes))

instance : ∀ (session : Session) (sources : List (List UInt8)),
    Decidable (session.CompletesAll sources)
  | _, [] => isTrue trivial
  | session, bytes :: sources =>
    have := instDecidableCompletesAll (session.eval (.whole bytes)).2 sources
    inferInstanceAs (Decidable (_ ∧ _))

/-- The first piece is evaluated, and the others behind it. -/
theorem evalAll_cons (session : Session) (bytes : List UInt8) (sources : List (List UInt8)) :
    session.evalAll (bytes :: sources) = (session.eval (.whole bytes)).2.evalAll sources := rfl

/-- Pieces and further ones are evaluated one behind the other. -/
theorem evalAll_append (session : Session) (sources sources' : List (List UInt8)) :
    session.evalAll (sources ++ sources') = (session.evalAll sources).evalAll sources' := by
  unfold evalAll steps
  rw [List.map_append, List.foldl_append]

/-- All pieces complete if those in front do, and those behind them in the session that these
leave. -/
theorem completesAll_append {sources sources' : List (List UInt8)} :
    session.CompletesAll (sources ++ sources') ↔
      session.CompletesAll sources ∧ (session.evalAll sources).CompletesAll sources' := by
  induction sources generalizing session with
  | nil => rw [List.nil_append, CompletesAll, true_and]; rfl
  | cons bytes sources ih => rw [List.cons_append, CompletesAll, CompletesAll, ih, and_assoc]; rfl

/-- A session reads the programs that can be read within its limits. -/
theorem parse_eq_ok_iff :
    session.parse src = .ok p ↔ Program.parse session.limits src = .ok p := by
  unfold parse
  cases Program.parse session.limits src with
  | error e => simp [Except.mapError]
  | ok p' => simp [Except.mapError]

/-- A program that can be read is executed in the session. -/
theorem eval_of_parse (h : session.parse src = .ok p) :
    session.eval src = session.perform (session.bounds.runInSession p) := by
  unfold eval runWith
  rw [h]

/-- A program whose statements run to their end has the value of the last one. -/
theorem eval_of_normal {v : Value} {m : Machine} (hp : session.parse src = .ok p)
    (h : session.bounds.statements p.statements session.machine = .ok (.normal v) m) :
    session.eval src = (.ok v, { session with machine := m }) := by
  rw [eval_of_parse hp]
  unfold perform Bounds.runInSession
  rw [bind_of_ok h]
  rfl

/-- A program fails when its statements do. -/
theorem eval_of_error {e : Stop} {m : Machine} (hp : session.parse src = .ok p)
    (h : session.bounds.statements p.statements session.machine = .error e m) :
    session.eval src = (.error (.ofStop e), { session with machine := m }) := by
  rw [eval_of_parse hp]
  unfold perform Bounds.runInSession
  rw [bind_of_error h]

/-- If a program is evaluated to an error, its statements fail. -/
theorem statements_of_eval_error {e : SessionError} (hp : session.parse src = .ok p)
    (h : (session.eval src).1 = .error e) :
    ∃ stop m, session.bounds.statements p.statements session.machine = .error stop m := by
  cases hss : session.bounds.statements p.statements session.machine with
  | error stop m => exact ⟨stop, m, rfl⟩
  | ok flow m =>
    rw [eval_of_parse hp] at h
    unfold perform Bounds.runInSession at h
    rw [bind_of_ok hss] at h
    cases h

/-- Pieces are read by a session as they are within its limits. -/
theorem map_parse_eq_iff {sources : List (List UInt8)} {programs : List Program} :
    sources.map (fun bytes => session.parse (.whole bytes)) = programs.map .ok ↔
      sources.map (fun bytes => Program.parse session.limits (.whole bytes)) =
        programs.map .ok := by
  induction sources generalizing programs with
  | nil => simp only [List.map_nil, List.nil_eq, List.map_eq_nil_iff]
  | cons bytes sources ih =>
    cases programs with
    | nil => simp only [List.map_cons, List.map_nil, reduceCtorEq]
    | cons p programs => simp only [List.map_cons, List.cons.injEq, parse_eq_ok_iff, ih]

/-- Behind programs that complete one after another, statements start in the machine that these
leave. Limits and bounds are what they were. -/
theorem CompletesAll.execAll_eq {sources : List (List UInt8)} {programs : List Program}
    (h : session.CompletesAll sources)
    (hparse : sources.map (fun bytes => session.parse (.whole bytes)) = programs.map .ok)
    (last : Value) :
    ∃ m last', session.evalAll sources = { session with machine := m } ∧
      ∀ ss, Stmt.execAll session.bounds.call session.bounds.rounds last
          (programs.flatMap (·.statements) ++ ss) session.machine =
        Stmt.execAll session.bounds.call session.bounds.rounds last' ss m := by
  induction sources generalizing session programs last with
  | nil =>
    obtain rfl := List.map_eq_nil_iff.mp hparse.symm
    exact ⟨session.machine, last, rfl, fun ss => rfl⟩
  | cons bytes sources ih =>
    -- The first piece completes, and leaves the machine on which the others start.
    obtain ⟨⟨p', v, m, hp', hstatements⟩, hmore⟩ := h
    obtain ⟨p, programs, rfl, hp, hprograms⟩ := List.map_eq_cons_iff.mp hparse.symm
    obtain rfl : p = p' := Except.ok.inj (hp.trans hp')
    rw [evalAll_cons]
    rw [eval_of_normal hp' hstatements] at hmore ⊢
    -- The statements of the first piece end as they do with any last value.
    obtain ⟨v', hv', -⟩ := Stmt.execAll_normal hstatements last
    obtain ⟨m', last', hleft, hexec⟩ := ih hmore hprograms.symm v'
    refine ⟨m', last', hleft, fun ss => ?_⟩
    rw [List.flatMap_cons, List.append_assoc, Stmt.execAll_append_of_normal hv']
    exact hexec ss

/-- The statements of pieces reach those of a piece behind pieces that complete, in the machine
that these leave. -/
theorem CompletesAll.statements_eq {front back : List (List UInt8)} {bytes : List UInt8}
    {programs : List Program} (h : session.CompletesAll front)
    (hparse : (front ++ bytes :: back).map (fun bytes => session.parse (.whole bytes)) =
      programs.map .ok) :
    ∃ (m : Machine) (last : Value) (p : Program) (later : List Program),
      session.evalAll front = { session with machine := m } ∧
      session.parse (.whole bytes) = .ok p ∧
      back.map (fun bytes => session.parse (.whole bytes)) = later.map .ok ∧
      session.bounds.statements (programs.flatMap (·.statements)) session.machine =
        Stmt.execAll session.bounds.call session.bounds.rounds last
          (p.statements ++ later.flatMap (·.statements)) m := by
  -- The programs are those in front, the one of the piece, and those behind it.
  rw [List.map_append, List.map_cons] at hparse
  obtain ⟨former, rest, rfl, hformer, hrest⟩ := List.map_eq_append_iff.mp hparse.symm
  obtain ⟨p, later, rfl, hp, hlater⟩ := List.map_eq_cons_iff.mp hrest
  obtain ⟨m, last, hleft, hexec⟩ := h.execAll_eq hformer.symm .unit
  refine ⟨m, last, p, later, hleft, hp.symm, hlater.symm, ?_⟩
  rw [List.flatMap_append, List.flatMap_cons]
  exact hexec _

/-- Cutting a source into pieces behind line feeds makes no difference, if each piece can be parsed
on its own. The whole source is parsed to the statements of the pieces in turn. If all pieces
complete when they are evaluated one after another, the whole source leaves the same session, and it
has the value of the last piece if that has a statement. If one piece fails behind pieces that
complete, the whole source fails with the same error and leaves the same session. -/
theorem eval_flatten {session : Session} {sources : List (List UInt8)} {programs : List Program}
    (hne : sources ≠ []) (hbreak : ∀ bytes ∈ sources.dropLast, bytes.getLast? = some 10)
    (hparse : sources.map (fun bytes => session.parse (.whole bytes)) = programs.map .ok) :
    session.parse (.whole sources.flatten) = .ok ⟨programs.flatMap (·.statements)⟩ ∧
      (session.CompletesAll sources →
        ∃ v, session.eval (.whole sources.flatten) = (.ok v, session.evalAll sources) ∧
          ∀ front bytes p, sources = front ++ [bytes] → session.parse (.whole bytes) = .ok p →
            p.statements ≠ [] → ((session.evalAll front).eval (.whole bytes)).1 = .ok v) ∧
      ∀ front bytes back e, sources = front ++ bytes :: back → session.CompletesAll front →
        ((session.evalAll front).eval (.whole bytes)).1 = .error e →
        session.eval (.whole sources.flatten) = (session.evalAll front).eval (.whole bytes) := by
  -- The pieces end with line breaks, so they are parsed as one whole.
  have hwhole : session.parse (.whole sources.flatten) = .ok ⟨programs.flatMap (·.statements)⟩ :=
    parse_eq_ok_iff.mpr (Program.parse_flatten hne hbreak (map_parse_eq_iff.mp hparse))
  refine ⟨hwhole, fun hcompletes => ?_, fun front bytes back e hsplit hcompletes herror => ?_⟩
  · -- All pieces complete, so the last one gives the value.
    obtain ⟨front, bytes, rfl⟩ := (List.eq_nil_or_concat sources).resolve_left hne
    rw [List.concat_eq_append] at *
    obtain ⟨hfront, ⟨p, v, m, hp, hstatements⟩, -⟩ := completesAll_append.mp hcompletes
    obtain ⟨m₀, last, p', later, hleft, hp', hlater, hexec⟩ := hfront.statements_eq hparse
    obtain rfl := List.map_eq_nil_iff.mp hlater.symm
    rw [hleft] at hp hstatements
    obtain rfl : p = p' := Except.ok.inj (hp.symm.trans hp')
    -- The value of the last piece is the value of all unless it has no statement.
    obtain ⟨v', hv', hvalue⟩ := Stmt.execAll_normal hstatements last
    rw [List.flatMap_nil, List.append_nil] at hexec
    refine ⟨v', ?_, fun front' bytes' p' hsplit hp' hstatement => ?_⟩
    · rw [eval_of_normal hwhole (hexec.trans hv'), evalAll_append, hleft, evalAll_cons,
        eval_of_normal hp hstatements]
      rfl
    · obtain ⟨rfl, hbytes⟩ := List.append_inj' hsplit rfl
      obtain rfl := List.head_eq_of_cons_eq hbytes
      obtain rfl : p' = p := Except.ok.inj (hp'.symm.trans hp)
      rw [hleft, eval_of_normal hp hstatements, hvalue hstatement]
  · -- A piece fails, and what is behind it is not executed.
    subst hsplit
    obtain ⟨m₀, last, p, later, hleft, hp, -, hexec⟩ := hcompletes.statements_eq hparse
    have hp : ({ session with machine := m₀ } : Session).parse (.whole bytes) = .ok p := hp
    rw [hleft] at herror ⊢
    obtain ⟨stop, m, hstatements⟩ := statements_of_eval_error hp herror
    have hfails := Stmt.execAll_append_of_error (Stmt.execAll_error hstatements last)
      (later.flatMap (·.statements))
    rw [eval_of_error hwhole (hexec.trans hfails), eval_of_error hp hstatements]

/-- A name that one piece declares is there for the next, and a piece that asks for a name that is
not there makes the whole source fail. -/
theorem eval_flatten_let :
    (∃ v, (start .standard ⟨4, 4⟩ .unlimited).eval
        (.whole [Text.bytes "let a = 1;\n", Text.bytes "a + 1;"].flatten) =
          (.ok v, (start .standard ⟨4, 4⟩ .unlimited).evalAll
            [Text.bytes "let a = 1;\n", Text.bytes "a + 1;"])) ∧
      (start .standard ⟨4, 4⟩ .unlimited).eval
        (.whole [Text.bytes "let a = 1;\n", Text.bytes "b;\n", Text.bytes "a + 1;"].flatten) =
          ((start .standard ⟨4, 4⟩ .unlimited).evalAll [Text.bytes "let a = 1;\n"]).eval
            (.whole (Text.bytes "b;\n")) := by
  -- All three pieces can be parsed.
  have hparsed : ∀ bytes ∈ [Text.bytes "let a = 1;\n", Text.bytes "b;\n", Text.bytes "a + 1;"],
      ∃ p, (start .standard ⟨4, 4⟩ .unlimited).parse (.whole bytes) = .ok p := by
    -- That a piece can be parsed is decided, and only the program is left open.
    have hok : ∀ bytes ∈ [Text.bytes "let a = 1;\n", Text.bytes "b;\n", Text.bytes "a + 1;"],
        ((start .standard ⟨4, 4⟩ .unlimited).parse (.whole bytes)).isOk = true := by
      decide +kernel
    intro bytes hbytes
    have hbytes := hok bytes hbytes
    cases h : (start .standard ⟨4, 4⟩ .unlimited).parse (.whole bytes) with
    | ok p => exact ⟨p, rfl⟩
    | error e =>
      rw [h] at hbytes
      exact absurd hbytes Bool.false_ne_true
  obtain ⟨p₁, h₁⟩ := hparsed (Text.bytes "let a = 1;\n") (by simp)
  obtain ⟨p₂, h₂⟩ := hparsed (Text.bytes "b;\n") (by simp)
  obtain ⟨p₃, h₃⟩ := hparsed (Text.bytes "a + 1;") (by simp)
  have hcompletes : (start .standard ⟨4, 4⟩ .unlimited).CompletesAll
      [Text.bytes "let a = 1;\n", Text.bytes "a + 1;"] := by decide +kernel
  -- Both parts of the statement are the general theorem, once without and once with a failure.
  constructor
  · obtain ⟨-, hvalue, -⟩ := @eval_flatten (start .standard ⟨4, 4⟩ .unlimited)
      [Text.bytes "let a = 1;\n", Text.bytes "a + 1;"] [p₁, p₃]
      (List.cons_ne_nil _ _) (by decide +kernel) (by simp [h₁, h₃])
    obtain ⟨v, heval, -⟩ := hvalue hcompletes
    exact ⟨v, heval⟩
  · obtain ⟨-, -, hfails⟩ := @eval_flatten (start .standard ⟨4, 4⟩ .unlimited)
      [Text.bytes "let a = 1;\n", Text.bytes "b;\n", Text.bytes "a + 1;"] [p₁, p₂, p₃]
      (List.cons_ne_nil _ _) (by decide +kernel) (by simp [h₁, h₂, h₃])
    -- The second piece asks for a name that is not declared.
    have hok : (((start .standard ⟨4, 4⟩ .unlimited).evalAll [Text.bytes "let a = 1;\n"]).eval
        (.whole (Text.bytes "b;\n"))).1.isOk = false := by decide +kernel
    cases herror : (((start .standard ⟨4, 4⟩ .unlimited).evalAll [Text.bytes "let a = 1;\n"]).eval
        (.whole (Text.bytes "b;\n"))).1 with
    | ok v =>
      rw [herror] at hok
      exact absurd hok.symm Bool.false_ne_true
    | error e =>
      exact hfails [Text.bytes "let a = 1;\n"] (Text.bytes "b;\n") [Text.bytes "a + 1;"] e rfl
        ⟨hcompletes.1, trivial⟩ herror

end Session

end Brisk
