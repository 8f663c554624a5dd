import Brisk.Proofs.Parse.Decision.Expression

/-!
# What decides the parsers of statements

A program is accepted or refused because of the tokens up to the one that is refused, and those in
front of that one begin a well-formed program (`program_decided`). The proof follows the grammar, as
for expressions, and puts the levels together by induction (`levels_decided`).
-/

namespace Brisk.Parse

variable {s s' : State}

/-! ## Statements -/

section Statements

variable {inner : Nested} (hsound : inner.Sound) (hinner : inner.Decided)
include hsound hinner

/-- What has been read of a condition can be gone on with until a token refuses it. -/
theorem condition_decided (k : Keyword) (hs : s.Closed) : Decided (condition inner k)
    (Viable (fun e => .symbol .leftParen :: (e.slots ++ [.symbol .rightParen]))
      Expr.WellFormed) s := by
  -- Where nothing has been read of the condition, it might be a name.
  have hfiller : Slot.Begins ((Expr.name filler).slots ++ [.symbol .rightParen]) [] :=
    begins_name_filler.append (by simp)
  unfold condition
  refine decided_expect_bind (by simp) ⟨_, wellFormed_name filler, by simpa using hfiller⟩
    fun s₁ hopen => decided_current_bind ?_
  have hs₁ := hopen.closed hs
  split
  · refine decided_bind hs₁ (hinner.expression s₁ hs₁) hsound.expression ?_ ?_
    · intro e us hwf hbegins
      exact ⟨e, hwf, .token (hbegins.append (by simp))⟩
    · intro e ts s₂ hwf hfilled _ hs₂
      refine decided_expect_bind (by simp) ?_ fun s₃ _ => decided_pure _
      exact ⟨e, hwf, .token (hfilled.append_begins (by simp))⟩
  · exact decided_fail fun _ => ⟨_, wellFormed_name filler, hfiller.token⟩

/-- What has been read of a declaration, from its keyword on, can be gone on with until a token
refuses it. -/
theorem declaration_decided (hs : s.Closed) (ht : s.current.token = .keyword .letKey) :
    Decided (statement inner) (Viable Stmt.slots Stmt.WellFormed) s := by
  -- Whatever stands behind the keyword so far, the rest of a declaration may follow.
  have hdeclare : ∀ name mutable (value : Expr) us, value.WellFormed →
      Slot.Begins (mutabilitySlots mutable ++
        .name name :: .symbol .assign :: (value.slots ++ [.symbol .semicolon])) us →
      Viable Stmt.slots Stmt.WellFormed (.keyword .letKey :: us) := by
    intro name mutable value us hwf hbegins
    refine ⟨.declare name mutable value, by rwa [Stmt.WellFormed], ?_⟩
    rw [Stmt.slots]
    exact hbegins.token
  -- Where the value has not been read, it might be a name, up to the semicolon.
  have hvalue := wellFormed_name filler
  have hend : Slot.Begins ((Expr.name filler).slots ++ [.symbol .semicolon]) [] :=
    begins_name_filler.append (by simp)
  unfold statement
  apply decided_current_bind
  rw [ht]
  refine decided_advance_bind ht (by simp) fun s₁ hlet => ?_
  have hs₁ := hlet.closed hs
  refine decided_bind hs₁ mutability_decided mutability_sound ?_ ?_
  · intro mutable us _ hbegins
    exact hdeclare filler mutable _ us hvalue (hbegins.append (by simpa using hend))
  intro mutable ts s₂ _ hfilled _ hs₂
  refine decided_bind hs₂ identifier_decided identifier_sound ?_ ?_
  · intro name us _ hbegins
    refine hdeclare name mutable _ _ hvalue (hfilled.append_begins ?_)
    exact hbegins.append (by simpa using hend)
  intro name ts' s₃ _ hfilled' _ hs₃
  refine decided_expect_bind (by simp) ?_ fun s₄ hassign => ?_
  · refine hdeclare name mutable _ _ hvalue (hfilled.append_begins ?_)
    exact hfilled'.append_begins (by simpa using hend)
  have hs₄ := hassign.closed hs₃
  refine decided_bind hs₄ (hinner.expression s₄ hs₄) hsound.expression ?_ ?_
  · intro value us hwf hbegins
    refine hdeclare name mutable value _ hwf (hfilled.append_begins ?_)
    exact hfilled'.append_begins (.token (hbegins.append (by simp)))
  intro value ts'' s₅ hwf hfilled'' _ hs₅
  refine decided_expect_bind (by simp) ?_ fun s₆ _ => decided_pure _
  refine hdeclare name mutable value _ hwf (hfilled.append_begins ?_)
  exact hfilled'.append_begins (.token (hfilled''.append_begins (by simp)))

omit hsound in
/-- What has been read of a function, from its keyword on, can be gone on with until a token refuses
it. -/
theorem function_decided (hs : s.Closed) (ht : s.current.token = .keyword .fnKey) :
    Decided (statement inner) (Viable Stmt.slots Stmt.WellFormed) s := by
  -- Whatever stands behind the keyword so far, the rest of a function may follow.
  have hfunction : ∀ name ps body us, Parameter.Distinct ps → Stmt.AllWellFormed body →
      Slot.Begins (.name name :: (Parameter.allSlots ps ++ Stmt.blockSlots body)) us →
      Viable Stmt.slots Stmt.WellFormed (.keyword .fnKey :: us) := by
    intro name ps body us hps hbody hbegins
    refine ⟨.function name ps body, ?_, ?_⟩
    · rw [Stmt.WellFormed]
      exact ⟨hps, hbody⟩
    · rw [Stmt.slots]
      exact hbegins.token
  unfold statement
  apply decided_current_bind
  rw [ht]
  refine decided_advance_bind ht (by simp) fun s₁ hfn => ?_
  have hs₁ := hfn.closed hs
  refine decided_bind hs₁ identifier_decided identifier_sound ?_ ?_
  · -- Behind a name, there might be no parameters and an empty body.
    intro name us _ hbegins
    refine hfunction name [] [] us distinct_nil allWellFormed_nil ?_
    exact hbegins.append (begins_allSlots_nil.append begins_blockSlots_nil)
  intro name ts s₂ _ hfilled _ hs₂
  refine decided_bind hs₂ (parameters_decided hs₂) parameters_sound ?_ ?_
  · -- Behind parameters, there might be an empty body.
    intro ps us hps hbegins
    refine hfunction name ps [] _ hps allWellFormed_nil (hfilled.append_begins ?_)
    exact hbegins.append begins_blockSlots_nil
  intro ps ts' s₃ hps hfilled' _ hs₃
  refine decided_bind_pure (hinner.block s₃ hs₃) ?_ _
  rintro us ⟨body, hbody, hbegins⟩
  refine hfunction name ps body _ hps hbody (hfilled.append_begins ?_)
  exact hfilled'.append_begins hbegins

/-- What has been read of a loop, from its keyword on, can be gone on with until a token refuses
it. -/
theorem loop_decided (hs : s.Closed) (ht : s.current.token = .keyword .whileKey) :
    Decided (statement inner) (Viable Stmt.slots Stmt.WellFormed) s := by
  -- Whatever stands behind the keyword so far, the rest of a loop may follow.
  have hloop : ∀ (test : Expr) body us, test.WellFormed → Stmt.AllWellFormed body →
      Slot.Begins (.symbol .leftParen :: (test.slots ++ [.symbol .rightParen]) ++
        Stmt.blockSlots body) us →
      Viable Stmt.slots Stmt.WellFormed (.keyword .whileKey :: us) := by
    intro test body us htest hbody hbegins
    refine ⟨.loop test body, ?_, ?_⟩
    · rw [Stmt.WellFormed]
      exact ⟨htest, hbody⟩
    · rw [Stmt.slots]
      -- The condition and the body are lists of their own, and one list in the slots of the loop.
      rw [List.cons_append, List.append_assoc] at hbegins
      exact hbegins.token
  unfold statement
  apply decided_current_bind
  rw [ht]
  refine decided_advance_bind ht (by simp) fun s₁ hwhile => ?_
  have hs₁ := hwhile.closed hs
  refine decided_bind hs₁ (condition_decided hsound hinner .whileKey hs₁)
    (condition_sound hsound .whileKey) ?_ ?_
  · -- Behind the condition, there might be an empty body.
    intro test us htest hbegins
    exact hloop test [] us htest allWellFormed_nil (hbegins.append begins_blockSlots_nil)
  intro test ts s₂ htest hfilled _ hs₂
  refine decided_bind_pure (hinner.block s₂ hs₂) ?_ _
  rintro us ⟨body, hbody, hbegins⟩
  exact hloop test body _ htest hbody (hfilled.append_begins hbegins)

/-- What has been read of a return, from its keyword on, can be gone on with until a token refuses
it. -/
theorem leave_decided (hs : s.Closed) (ht : s.current.token = .keyword .returnKey) :
    Decided (statement inner) (Viable Stmt.slots Stmt.WellFormed) s := by
  -- Whatever stands behind the keyword so far, a value and a semicolon may follow.
  have hleave : ∀ (value : Expr) us, value.WellFormed →
      Slot.Begins (value.slots ++ [.symbol .semicolon]) us →
      Viable Stmt.slots Stmt.WellFormed (.keyword .returnKey :: us) := by
    intro value us hwf hbegins
    refine ⟨.leave (some value), by rwa [Stmt.WellFormed], ?_⟩
    rw [Stmt.slots]
    exact hbegins.token
  unfold statement
  apply decided_current_bind
  rw [ht]
  refine decided_advance_bind ht (by simp) fun s₁ hreturn => decided_current_bind ?_
  have hs₁ := hreturn.closed hs
  simp only
  split
  · -- A semicolon is there. Were it refused, a value could have stood in its place.
    rw [pure_bind]
    refine decided_expect_bind (by simp) ?_ fun s₂ _ => decided_pure _
    exact hleave _ [] (wellFormed_name filler) (begins_name_filler.append (by simp))
  · rw [bind_map_left]
    refine decided_bind hs₁ (hinner.expression s₁ hs₁) hsound.expression ?_ ?_
    · intro value us hwf hbegins
      exact hleave value us hwf (hbegins.append (by simp))
    intro value ts s₂ hwf hfilled _ hs₂
    refine decided_expect_bind (by simp) ?_ fun s₃ _ => decided_pure _
    exact hleave value _ hwf (hfilled.append_begins (by simp))

/-- What is no other statement is an expression. -/
theorem expressionStatement_decided (hs : s.Closed) :
    Decided (do
      let e ← inner.expression
      expect (.symbol .semicolon)
      return Stmt.expression e) (Viable Stmt.slots Stmt.WellFormed) s := by
  have hexpression : ∀ (e : Expr) us, e.WellFormed →
      Slot.Begins (e.slots ++ [.symbol .semicolon]) us → Viable Stmt.slots Stmt.WellFormed us := by
    intro e us hwf hbegins
    exact ⟨.expression e, by rwa [Stmt.WellFormed], by rwa [Stmt.slots]⟩
  refine decided_bind hs (hinner.expression s hs) hsound.expression ?_ ?_
  · intro e us hwf hbegins
    exact hexpression e us hwf (hbegins.append (by simp))
  · intro e ts s₁ hwf hfilled _ _
    refine decided_expect_bind (by simp) ?_ fun s₂ _ => decided_pure _
    exact hexpression e _ hwf (hfilled.append_begins (by simp))

/-- What has been read of a statement can be gone on with until a token refuses it, whatever the
first token was. -/
theorem statement_decided (hs : s.Closed) :
    Decided (statement inner) (Viable Stmt.slots Stmt.WellFormed) s := by
  have hother := expressionStatement_decided hsound hinner hs
  cases ht : s.current.token with
  | keyword k =>
    -- A keyword that starts no other statement may be the start of an expression, such as a truth
    -- value.
    cases k with
    | letKey => exact declaration_decided hsound hinner hs ht
    | fnKey => exact function_decided hinner hs ht
    | whileKey => exact loop_decided hsound hinner hs ht
    | returnKey => exact leave_decided hsound hinner hs ht
    | ifKey =>
      unfold statement
      apply decided_current_bind
      rw [ht]
      refine decided_bind_pure (hinner.conditional s hs ht) ?_ _
      rintro us ⟨c, hwf, hbegins⟩
      exact ⟨.conditional c, by rwa [Stmt.WellFormed], by rwa [Stmt.slots]⟩
    | mutKey | elseKey | truth | type =>
      unfold statement
      apply decided_current_bind
      rw [ht]
      exact hother
  | symbol sym =>
    unfold statement
    apply decided_current_bind
    rw [ht]
    cases sym with
    | semicolon => exact decided_advance_bind ht (by simp) fun s₁ _ => decided_pure _
    | _ => exact hother
  | endOfFile | identifier | str | int | float =>
    unfold statement
    apply decided_current_bind
    rw [ht]
    exact hother

/-- Where statements may follow one another, one is consumed and then the others. -/
theorem more_decided {more : Parse (List Stmt)} (slots : List Slot) (hs : s.Closed)
    (hslots : Slot.Begins slots [])
    (hmore : ∀ s', s'.Closed → s'.size < s.size →
      Decided more (Viable (fun ss => Stmt.listSlots ss ++ slots) Stmt.AllWellFormed) s') :
    Decided (do
      let st ← statement inner
      return st :: (← more))
      (Viable (fun ss => Stmt.listSlots ss ++ slots) Stmt.AllWellFormed) s := by
  -- A first statement and others are statements, and are written one behind the other.
  have hcons : ∀ (st : Stmt) ss us, st.WellFormed → Stmt.AllWellFormed ss →
      Slot.Begins (st.slots ++ (Stmt.listSlots ss ++ slots)) us →
      Viable (fun ss => Stmt.listSlots ss ++ slots) Stmt.AllWellFormed us := by
    intro st ss us hst hss hbegins
    refine ⟨st :: ss, ?_, ?_⟩
    · rw [Stmt.AllWellFormed]
      exact ⟨hst, hss⟩
    · show Slot.Begins (Stmt.listSlots (st :: ss) ++ slots) us
      rwa [Stmt.listSlots, List.append_assoc]
  refine decided_bind hs (statement_decided hsound hinner hs) (statement_sound hsound) ?_ ?_
  · intro st us hst hbegins
    refine hcons st [] us hst allWellFormed_nil (hbegins.append ?_)
    simpa [Stmt.listSlots] using hslots
  · -- Behind the first statement fewer tokens are left.
    intro st ts s₁ hst hfilled hread hs₁
    have hpasses : Passes st.slots s s₁ := ⟨ts, hfilled, hread⟩
    have hlt : s₁.size < s.size := hpasses.size_lt hs st.tokens_slots_ne_nil
    refine decided_bind_pure (hmore s₁ hs₁ hlt) ?_ _
    rintro us ⟨ss, hss, hbegins⟩
    exact hcons st ss _ hst hss (hfilled.append_begins hbegins)

/-- What has been read of the statements of a block can be gone on with until a token refuses it. -/
theorem blockStatements_decided (hs : s.Closed) :
    Decided (Loop.unbounded (fun rs (_ : Unit) => blockStatements inner rs) ())
      (Viable (fun ss => Stmt.listSlots ss ++ [.symbol .rightCurly]) Stmt.AllWellFormed) s := by
  induction hsize : s.size using Nat.strong_induction_on generalizing s with
  | _ n ih =>
    -- One round of the loop is a step, which leads back to the loop with fewer tokens left.
    refine .congr ?_ fun u hu _ => (blockLoop hsound).unbounded_eq (by simp) () hu
    have hmore := more_decided hsound hinner [.symbol .rightCurly] hs (by simp)
      fun s' hs' hlt => ih s'.size (by omega) hs' rfl
    unfold blockStep
    apply decided_current_bind
    cases ht : s.current.token with
    | symbol sym =>
      cases sym with
      | rightCurly => exact decided_advance_bind ht (by simp) fun s₁ _ => decided_pure _
      | _ => exact hmore
    | endOfFile => exact decided_unexpected ⟨[], allWellFormed_nil, by simp [Stmt.listSlots]⟩
    | keyword | identifier | str | int | float => exact hmore

/-- What has been read of a block can be gone on with until a token refuses it. -/
theorem blockBody_decided (hs : s.Closed) :
    Decided (blockBody inner) (Viable Stmt.blockSlots Stmt.AllWellFormed) s := by
  unfold blockBody
  refine decided_expect_bind (by simp) ⟨[], allWellFormed_nil, begins_blockSlots_nil⟩
    fun s₁ hopen => ?_
  refine (blockStatements_decided hsound hinner (hopen.closed hs)).mono ?_
  rintro us ⟨ss, hss, hbegins⟩
  exact ⟨ss, hss, hbegins.token⟩

omit hsound in
/-- What has been read behind a conditional can be gone on with until a token refuses it. -/
theorem alternative_decided (hs : s.Closed) :
    Decided (alternative inner) (Viable Alternative.slots Alternative.WellFormed) s := by
  -- Behind `else` there might be a block.
  have hblock : ∀ body us, Stmt.AllWellFormed body → Slot.Begins (Stmt.blockSlots body) us →
      Viable Alternative.slots Alternative.WellFormed (.keyword .elseKey :: us) := by
    intro body us hwf hbegins
    refine ⟨.block body, by rwa [Alternative.WellFormed], ?_⟩
    rw [Alternative.slots]
    exact hbegins.token
  unfold alternative
  apply decided_current_bind
  split
  · -- Behind `else` stands a further conditional or a block, and nothing else.
    next helse =>
    refine decided_advance_bind helse (by simp) fun s₁ hread => decided_current_bind ?_
    have hs₁ := hread.closed hs
    have hV := hblock [] [] allWellFormed_nil begins_blockSlots_nil
    cases ht : s₁.current.token with
    | keyword k =>
      cases k with
      | ifKey =>
        refine decided_bind_pure (hinner.conditional s₁ hs₁ ht) ?_ _
        rintro us ⟨c, hwf, hbegins⟩
        refine ⟨.chain c, by rwa [Alternative.WellFormed], ?_⟩
        rw [Alternative.slots]
        exact hbegins.token
      | _ => exact decided_unexpected hV
    | symbol sym =>
      cases sym with
      | leftCurly =>
        refine decided_bind_pure (hinner.block s₁ hs₁) ?_ _
        rintro us ⟨body, hwf, hbegins⟩
        exact hblock body us hwf hbegins
      | _ => exact decided_unexpected hV
    | endOfFile | identifier | str | int | float => exact decided_unexpected hV
  · exact decided_pure _

/-- What has been read of a conditional, from its keyword on, can be gone on with until a token
refuses it. -/
theorem conditionalBody_decided (hs : s.Closed) (ht : s.current.token = .keyword .ifKey) :
    Decided (conditionalBody inner) (Viable Conditional.slots Conditional.WellFormed) s := by
  -- Whatever stands behind the keyword so far, the rest of a conditional may follow.
  have hconditional : ∀ (test : Expr) body (otherwise : Alternative) us, test.WellFormed →
      Stmt.AllWellFormed body → otherwise.WellFormed →
      Slot.Begins (.symbol .leftParen :: (test.slots ++ [.symbol .rightParen]) ++
        (Stmt.blockSlots body ++ otherwise.slots)) us →
      Viable Conditional.slots Conditional.WellFormed (.keyword .ifKey :: us) := by
    intro test body otherwise us htest hbody hotherwise hbegins
    refine ⟨.mk test body otherwise, ?_, ?_⟩
    · rw [Conditional.WellFormed]
      exact ⟨htest, hbody, hotherwise⟩
    · rw [Conditional.slots]
      simp only [Stmt.blockSlots, List.cons_append, List.append_assoc, List.nil_append] at hbegins
      exact hbegins.token
  -- Where nothing follows the block, the conditional has no alternative.
  have hnothing : Alternative.nothing.WellFormed := by rw [Alternative.WellFormed]; trivial
  have hslots : Slot.Begins Alternative.nothing.slots [] := by simp [Alternative.slots]
  unfold conditionalBody
  refine decided_advance_bind ht (by simp) fun s₁ hif => ?_
  have hs₁ := hif.closed hs
  refine decided_bind hs₁ (condition_decided hsound hinner .ifKey hs₁)
    (condition_sound hsound .ifKey) ?_ ?_
  · intro test us htest hbegins
    refine hconditional test [] .nothing us htest allWellFormed_nil hnothing ?_
    exact hbegins.append (begins_blockSlots_nil.append hslots)
  intro test ts s₂ htest hfilled _ hs₂
  refine decided_bind hs₂ (hinner.block s₂ hs₂) hsound.block ?_ ?_
  · intro body us hbody hbegins
    refine hconditional test body .nothing _ htest hbody hnothing ?_
    exact hfilled.append_begins (hbegins.append hslots)
  intro body ts' s₃ hbody hfilled' _ hs₃
  refine decided_bind_pure (alternative_decided hinner hs₃) ?_ _
  rintro us ⟨otherwise, hotherwise, hbegins⟩
  refine hconditional test body otherwise _ htest hbody hotherwise ?_
  exact hfilled.append_begins (hfilled'.append_begins hbegins)

/-- What has been read of a program can be gone on with until a token refuses it. -/
theorem topStatements_decided (hs : s.Closed) :
    Decided (Loop.unbounded (fun rs (_ : Unit) => topStatements inner rs) ())
      (Viable (fun ss => Stmt.listSlots ss ++ []) Stmt.AllWellFormed) s := by
  induction hsize : s.size using Nat.strong_induction_on generalizing s with
  | _ n ih =>
    refine .congr ?_ fun u hu _ => (topLoop hsound).unbounded_eq (by simp) () hu
    unfold topStep
    apply decided_current_bind
    split
    · exact decided_pure _
    · exact more_decided hsound hinner [] hs Slot.begins_nil fun s' hs' hlt =>
        ih s'.size (by omega) hs' rfl

end Statements

/-! ## Levels and programs -/

/-- The parsers that may open a number of levels are decided. -/
theorem levels_decided (max n : Nat) :
    Nested.Decided ⟨expression max n, block max n, conditional max n⟩ := by
  induction n with
  | zero =>
    -- No level may be opened: the parsers refuse every token, without a judgement on it.
    refine ⟨fun s _ => ?_, fun s _ => ?_, fun s _ _ => ?_⟩
    all_goals exact decided_fail fun h => absurd rfl (h max)
  | succ n ih =>
    have hsound := levels_sound max n
    exact ⟨fun s hs => expressionBody_decided hsound ih hs,
      fun s hs => blockBody_decided hsound ih hs,
      fun s hs ht => conditionalBody_decided hsound ih hs ht⟩

/-- A program is accepted or refused because of the tokens up to the one that is refused, and those
in front of that one begin some program. -/
theorem program_decided (max : Nat) (hs : s.Closed) :
    Decided (program max) (Viable Program.slots Program.WellFormed) s := by
  unfold program
  refine decided_rounds_bind (fun rs (_ : Unit) => topStatements (nested max) rs) (i := ()) ?_
  have hstatements := topStatements_decided (nested_sound max) (levels_decided max max) hs
  refine decided_bind_pure hstatements ?_ _
  rintro ts ⟨ss, hss, hbegins⟩
  refine ⟨⟨ss⟩, hss, ?_⟩
  show Slot.Begins (Stmt.listSlots ss) ts
  simpa using hbegins

end Brisk.Parse
