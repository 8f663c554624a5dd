import Brisk.Proofs.Parse.Agreement

/-!
# Calling a parser again

A parser can be called any number of times, for a program or for an expression, and a call may end
with an error in the middle of what is being parsed. What a call comes to depends on what is left of
the source and on the limits only (`Parser.calls_independent`): the token that was being looked at
is replaced by the first one that is requested, no level is open between calls (`Parser.Idle`), and
the number of requests is a matter of the stream (`Parser.exists_answer`).
-/

namespace Brisk

namespace Parser

variable {limits : Limits} {p : Parser}

/-- What a parser can be called for. -/
inductive Call where
  | program
  | expression

/-- What a call reads. -/
inductive Tree where
  | program (p : Program)
  | expression (e : Expr)

/-- Answers a call. -/
noncomputable def answer : Call → Parsing Tree
  | .program => do return .program (← parse)
  | .expression => do return .expression (← parseExpression)

/-- What the grammar has for a call. -/
def Call.grammar (max : Nat) : Call → Parse Tree
  | .program => do return .program (← Parse.program max)
  | .expression => do return .expression (← Parse.soleExpression max)

/-- A parser after it has been called, one time after the other. -/
noncomputable def after : List Call → Parser → Option Parser
  | [], p => some p
  | call :: calls, p => (answer call p).bind fun (_, p') => after calls p'

/-! ## One call -/

/-- Whether a parser is between calls: no level is open in it, and at no time have more of them been
open than may be. -/
structure Idle (limits : Limits) (p : Parser) : Prop where
  valid : p.scanner.reader.Valid
  bound : p.bound = limits.nesting
  closed : p.depth = 0
  deepest : p.deepest ≤ limits.nesting
  limits : p.scanner.limits = limits

/-- A parser that is idle stands for its state with all levels left. -/
theorem idle_iff : p.Idle limits ↔ p.Stands limits limits.nesting p.state := by
  constructor
  · intro h
    exact ⟨h.valid, rfl, h.bound, by rw [h.closed, Nat.zero_add], h.deepest, h.limits⟩
  · intro h
    have hlevels := h.levels
    exact ⟨h.valid, h.bound, by omega, h.deepest, h.limits⟩

/-- A parser that has just been put around a scanner is between calls. -/
theorem idle_around {s : Scanner} (hvalid : s.reader.Valid) (hlimits : s.limits = limits) :
    (around s).Idle limits :=
  ⟨hvalid, congrArg Limits.nesting hlimits, rfl, Nat.zero_le _, hlimits⟩

section Stream

variable {α : Type} {m : Parsing α} {q : Parse α} {lexemes ahead : Lexemes}

/-- A result of the grammar is found on what is left of the tokens, from the first of them on. -/
theorem runOn_of_ok {first : Lexeme} (h : lexemes.next = (.ok first, ahead)) :
    q.runOn lexemes = ((outcome q ⟨first, ahead⟩).1, (outcome q ⟨first, ahead⟩).2.ahead) := by
  unfold Parse.runOn outcome
  rw [h]
  simp only
  cases q ⟨first, ahead⟩ <;> rfl

/-- If there is an error in the place of the first token, it is the result. -/
theorem runOn_of_error {e : LexError} (h : lexemes.next = (.error e, ahead)) :
    q.runOn lexemes = (.error (.lex e), ahead) := by
  unfold Parse.runOn
  rw [h]

/-- What agrees with the grammar from its first token on agrees with it from a stream on, whatever
token a parser has looked at before. -/
theorem exists_requests (h : ∀ s, Agrees limits limits.nesting m q s) (lexemes : Lexemes) :
    ∃ k, ∀ p : Parser, p.Idle limits → p.stream = lexemes →
      ∃ p', (advance >>= fun _ => m) p = some ((q.runOn lexemes).1, p') ∧ p'.Idle limits ∧
        p'.stream = (q.runOn lexemes).2 ∧ p.scanner.after k = some p'.scanner := by
  rcases hnext : lexemes.next with ⟨e | first, ahead⟩
  · -- Nothing can be scanned at the beginning, and that is the answer after one request.
    rw [runOn_of_error hnext]
    refine ⟨1, fun p hp hstream => ?_⟩
    obtain ⟨p₁, hrun, hp₁, hafter⟩ := (idle_iff.mp hp).advance
    have hnext : p.state.ahead.next = (.error e, ahead) := by rw [← hnext, ← hstream]; rfl
    simp only [outcome, Parse.advance, hnext] at hrun hp₁
    have hstate := hp₁.state
    refine ⟨p₁, Running.bind_of_error hrun, idle_iff.mpr (hstate ▸ hp₁), ?_, hafter⟩
    exact congrArg Parse.State.ahead hstate
  · -- The first token is asked for, and then what the parser itself asks for.
    rw [runOn_of_ok hnext]
    obtain ⟨k, hm⟩ := h ⟨first, ahead⟩
    refine ⟨1 + k, fun p hp hstream => ?_⟩
    obtain ⟨p₁, hrun, hp₁, hafter⟩ := (idle_iff.mp hp).advance
    have hnext : p.state.ahead.next = (.ok first, ahead) := by rw [← hnext, ← hstream]; rfl
    simp only [outcome, Parse.advance, hnext] at hrun hp₁
    obtain ⟨p₂, hrun', hp₂, hafter'⟩ := hm p₁ hp₁
    have hstate := hp₂.state
    refine ⟨p₂, ?_, idle_iff.mpr (hstate ▸ hp₂), congrArg Parse.State.ahead hstate, ?_⟩
    · rw [Running.bind_of_ok hrun, hrun']
    · rw [Scanner.after_add, hafter]
      exact hafter'

end Stream

/-- A call is answered with what the grammar gives on the stream, and the scanner that it leaves is
the one after a number of requests that only the stream decides. -/
theorem exists_answer (limits : Limits) (call : Call) (lexemes : Lexemes) :
    ∃ k, ∀ p : Parser, p.Idle limits → p.stream = lexemes →
      ∃ p', answer call p = some (((call.grammar limits.nesting).runOn lexemes).1, p') ∧
        p'.Idle limits ∧ p'.stream = ((call.grammar limits.nesting).runOn lexemes).2 ∧
        p.scanner.after k = some p'.scanner := by
  have hopens := opens_levels limits limits.nesting (limits.nesting + 1) (Nat.lt_succ_self _)
  cases call with
  | program =>
    -- The levels are opened behind the first token, so a call is that token and what follows.
    have hprogram : answer .program = advance >>= fun _ => do
        return .program ⟨← topStatements (← opening)⟩ := by
      simp [answer, parse]
    rw [hprogram]
    refine exists_requests (fun s => agrees_opening_bind ?_) lexemes
    unfold Call.grammar Parse.program
    simp only [bind_assoc, pure_bind]
    exact (agrees_topStatements hopens s).unbounded_bind fun _ _ _ => agrees_pure _
  | expression =>
    have hexpression : answer .expression = advance >>= fun _ => do
        let e ← (← opening).expression
        consume .endOfFile
        return .expression e := by
      simp [answer, parseExpression]
    rw [hexpression]
    refine exists_requests (fun s => agrees_opening_bind ?_) lexemes
    unfold Call.grammar Parse.soleExpression
    simp only [bind_assoc, pure_bind]
    exact (hopens.expression s).bind fun e s₁ _ => agrees_close _ _

/-! ## Calls one after the other -/

/-- Every call is answered, and leaves the parser so that it can be called again. -/
theorem exists_after (calls : List Call) {p : Parser} (hp : p.Idle limits) :
    ∃ p', p.after calls = some p' ∧ p'.Idle limits := by
  induction calls generalizing p with
  | nil => exact ⟨p, rfl, hp⟩
  | cons call calls ih =>
    obtain ⟨k, hanswer⟩ := exists_answer limits call p.stream
    obtain ⟨p₁, hrun, hp₁, -, -⟩ := hanswer p hp rfl
    obtain ⟨p₂, hafter, hp₂⟩ := ih hp₁
    refine ⟨p₂, ?_, hp₂⟩
    rw [after, hrun]
    exact hafter

/-- A parser carries nothing over from one call to the next. Whatever it has been called for before,
and however that has ended, every call is answered. -/
theorem calls_independent (limits : Limits) (bytes : List UInt8) (ending : Source.Ending)
    (earlier : List Call) (call : Call) : ∃ p result p',
    (ofBytes limits bytes ending).after earlier = some p ∧ answer call p = some (result, p') ∧
      -- No level is open before and after the call, and at no time more of them than may be.
      p.depth = 0 ∧ p'.depth = 0 ∧ p'.deepest ≤ limits.nesting ∧
      -- A parser that has not been called yet gives the same result, and leaves the same scanner.
      (∃ q, answer call (around p.scanner) = some (result, q) ∧ q.scanner = p'.scanner) ∧
      -- Of the scanner, only what is left of its source and the limits matter.
      p.scanner.reader.Valid ∧ p.scanner.limits = limits ∧
      (∀ s : Scanner, s.reader.Valid → s.source = p.scanner.source → s.limits = limits →
        ∃ q, answer call (around s) = some (result, q) ∧
          q.scanner.source = p'.scanner.source ∧ q.scanner.limits = limits) ∧
      -- The result is what the grammar gives on the tokens that are left.
      (call.grammar limits.nesting).runOn (p.scanner.source.lexemes limits) =
        (result, p'.scanner.source.lexemes limits) := by
  have hfresh : (ofBytes limits bytes ending).Idle limits :=
    idle_around (Reader.valid_ofBytes bytes ending) rfl
  obtain ⟨p, hafter, hp⟩ := exists_after earlier hfresh
  obtain ⟨k, hanswer⟩ := exists_answer limits call p.stream
  obtain ⟨p', hrun, hp', hstream, hscanner⟩ := hanswer p hp rfl
  refine ⟨p, _, p', hafter, hrun, hp.closed, hp'.closed, hp'.deepest, ?_, hp.valid, hp.limits,
    fun s hvalid hsource hlimits => ?_, ?_⟩
  · -- Both parsers make `k` requests to the same scanner.
    obtain ⟨q, hrun', -, -, hscanner'⟩ :=
      hanswer (around p.scanner) (idle_around hp.valid hp.limits) rfl
    exact ⟨q, hrun', Option.some.inj (hscanner'.symm.trans hscanner)⟩
  · have hsame : (around s).stream = p.stream := by
      unfold stream around
      rw [hsource, hlimits, hp.limits]
    obtain ⟨q, hrun', hq, -, hscanner'⟩ := hanswer (around s) (idle_around hvalid hlimits) hsame
    obtain ⟨t, hafter', hleft⟩ :=
      Scanner.after_source k hp.valid hvalid hsource.symm (hp.limits.trans hlimits.symm) hscanner
    obtain rfl : t = q.scanner := Option.some.inj (hafter'.symm.trans hscanner')
    exact ⟨q, hrun', hleft.symm, hq.limits⟩
  · have hstream' : p.stream = p.scanner.source.lexemes limits := by rw [stream, hp.limits]
    have hleft : p'.stream = p'.scanner.source.lexemes limits := by rw [stream, hp'.limits]
    rw [← hstream', ← hleft, hstream]

/-- A call fails at the second of two expressions. For the next call the parser gives the same result
as one that is put around the scanner that is left. -/
theorem calls_independent_rest : ∃ p result p' q,
    (ofBytes .standard (Text.bytes "1 2") .endOfFile).after [.expression] = some p ∧
      answer .program p = some (result, p') ∧ answer .program (around p.scanner) = some (result, q) ∧
      q.scanner.source = p'.scanner.source := by
  obtain ⟨p, result, p', hafter, hanswer, -, -, -, -, hvalid, hlimits, hsame, -⟩ :=
    calls_independent .standard (Text.bytes "1 2") .endOfFile [.expression] .program
  obtain ⟨q, hq, hsource, -⟩ := hsame p.scanner hvalid rfl hlimits
  exact ⟨p, result, p', q, hafter, hanswer, hq, hsource⟩

end Parser

end Brisk
