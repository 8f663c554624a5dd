import Brisk.Proofs.Parse.Decision

/-!
# What decides the parsers of expressions

Each parser of the grammar accepts or refuses because of the tokens up to the one that is refused,
and what it has consumed in front of that one begins an expression (`expressionBody_decided`). So
for every place in which a parser can refuse a token, there is an expression that goes on there.
What is missing is filled in: a name for an expression, no parameters, no arguments and an empty
block. A parameter that is missing needs a name that is not taken yet.

The parsers one level further in are decided by assumption (`Nested.Decided`), and the loops are
taken without their rounds.
-/

namespace Brisk.Parse

variable {s s' : State}

/-! ## Parameters -/

/-- A name that stands where no other one is known. -/
abbrev filler : String := Token.underscores 0

/-- A name is read from its token. -/
theorem identifier_sound : Sound identifier (fun name => [.name name]) fun _ => True :=
  fun _ _ _ _ h => ⟨Passes.single_iff.mpr (identifier_eq_ok_iff.mp h), trivial⟩

/-- One token decides whether there is a name. -/
theorem identifier_decided :
    Decided identifier (Viable (fun name => [.name name]) fun _ => True) s := by
  unfold identifier
  apply decided_current_bind
  have hV : Viable (fun name => [Slot.name name]) (fun _ => True) [] := ⟨filler, trivial, by simp⟩
  cases ht : s.current.token with
  | identifier name => exact decided_advance_bind ht (by simp) fun s₁ _ => decided_pure name
  | endOfFile | symbol | keyword | str | int | float => exact decided_unexpected hV

/-- The slot of the mark of what can be assigned to. -/
abbrev mutabilitySlots (mutable : Bool) : List Slot := if mutable then [.keyword .mutKey] else []

/-- The mark of a mutable name is read from its token, or from none. -/
theorem mutability_sound : Sound mutability mutabilitySlots fun _ => True :=
  fun _ _ _ _ h => ⟨passes_mutability h, trivial⟩

/-- One token decides whether the mark is there. -/
theorem mutability_decided : Decided mutability (Viable mutabilitySlots fun _ => True) s := by
  unfold mutability
  apply decided_current_bind
  split
  · next ht => exact decided_advance_bind ht (by simp) fun s₁ _ => decided_pure true
  · exact decided_pure false

/-- Consumes parameters, when those with the names `seen` are already there. -/
abbrev someParameters : List String → Parse (List Parameter) :=
  Loop.unbounded fun rs seen => parameterList seen rs

/-- What has been read of parameters can be gone on with if their names are distinct, until a token
refuses it. -/
theorem someParameters_decided (seen : List String) (hs : s.Closed) :
    Decided (someParameters seen) (Viable Parameter.listSlots (Declarable seen)) s := by
  -- By induction on what can still be read: the loop goes on behind a parameter and a comma.
  induction hsize : s.size using Nat.strong_induction_on generalizing s seen with
  | _ n ih =>
    refine .congr ?_ fun u hu _ => parameterLoop.unbounded_eq le_rfl seen hu
    unfold parameterStep
    have hfiller : ∀ mutable ts, Slot.Begins (mutabilitySlots mutable) ts →
        Viable Parameter.listSlots (Declarable seen) ts := by
      intro mutable ts h
      obtain ⟨n, hn⟩ := Token.exists_fresh seen
      exact ⟨[⟨Token.underscores n, mutable⟩], .singleton hn, h.append (by simp)⟩
    refine decided_bind hs mutability_decided mutability_sound
      (fun mutable ts _ h => hfiller mutable ts h) fun mutable ts s₁ _ hfilled hread hs₁ => ?_
    have hV := hfiller mutable (ts ++ []) (by simpa using hfilled.begins)
    -- Anything but a name is refused, and so is a name that is taken. The latter has been left
    -- already when that is found.
    cases ht : s₁.current.token with
    | identifier name =>
      by_cases hseen : name ∈ seen
      · refine decided_advance_throw (.duplicateParameter name) hV fun u hu => ?_
        rw [position_bind, current_bind, hu, ht]
        simp only [if_pos hseen]
      · -- The position is only used when the name is taken.
        have hfresh : Decided (do
            advance
            if (← current) = .symbol .comma then
              advance
              return ⟨name, mutable⟩ :: (← someParameters (name :: seen))
            else return [⟨name, mutable⟩])
            (fun us => Viable Parameter.listSlots (Declarable seen) (ts ++ us)) s₁ := by
          refine decided_advance_bind ht (by simp) fun s₂ hname => decided_current_bind ?_
          split
          · next hcomma =>
            refine decided_advance_bind hcomma (by simp) fun s₃ hnext => ?_
            have hread₃ := hread.trans (hname.trans hnext)
            have hlt : s₃.size < n := hsize ▸ hread₃.size_lt hs (by simp)
            refine decided_bind_pure (ih _ hlt (name :: seen) (hread₃.closed hs) rfl) ?_ _
            rintro us ⟨ps, hps, hbegins⟩
            refine ⟨⟨name, mutable⟩ :: ps, hps.cons hseen, ?_⟩
            rw [Parameter.listSlots_cons _ hps.nonempty, Parameter.slots, List.append_assoc]
            exact hfilled.append_begins (.token (.token hbegins))
          · exact decided_pure _
        refine hfresh.congr fun u _ hu => ?_
        rw [position_bind, current_bind, hu, ht]
        simp only [if_neg hseen]
    | endOfFile | symbol | keyword | str | int | float =>
      refine decided_of_fault (.expectedParameter s₁.current.token) (fun _ => hV) fun u hu => ?_
      rw [position_bind, current_bind, hu, ht]
      rfl

/-- Parameters are read from their writing, with distinct names that have not been seen. -/
theorem someParameters_sound (seen : List String) :
    Sound (someParameters seen) Parameter.listSlots (Declarable seen) := by
  intro s ps s' hs h
  unfold someParameters Loop.unbounded at h
  rw [rounds_bind] at h
  exact parameterList_sound _ seen s s' ps hs (size_le_length_rounds s) (by simp) h

/-- No parameters can stand wherever parameters can. -/
theorem distinct_nil : Parameter.Distinct [] := by simp [Parameter.Distinct]

/-- An empty list of parameters can still be written where nothing has been. -/
theorem begins_allSlots_nil : Slot.Begins (Parameter.allSlots []) [] := by
  simp [Parameter.allSlots, Parameter.listSlots]

/-- What has been read of parameters in parentheses can be gone on with until a token refuses it. -/
theorem parameters_decided (hs : s.Closed) :
    Decided parameters (Viable Parameter.allSlots Parameter.Distinct) s := by
  unfold parameters
  refine decided_expect_bind (by simp) ⟨[], distinct_nil, begins_allSlots_nil⟩
    fun s₁ hopen => decided_current_bind ?_
  have hs₁ := hopen.closed hs
  simp only
  split
  · -- There are no parameters.
    next hclose =>
    rw [pure_bind]
    refine decided_expect_bind (by simp) ?_ fun s₂ _ => decided_pure _
    exact ⟨[], distinct_nil, by simp [Parameter.allSlots, Parameter.listSlots]⟩
  · -- The parameters are decided one by one, and closed by a parenthesis.
    refine decided_rounds_bind (fun rs seen => parameterList seen rs) ?_
    refine decided_bind hs₁ (someParameters_decided [] hs₁) (someParameters_sound []) ?_ ?_
    · intro ps us hps hbegins
      exact ⟨ps, hps.distinct, .token (hbegins.append (by simp))⟩
    · intro ps ts s₂ hps hfilled hread hs₂
      refine decided_expect_bind (by simp) ?_ fun s₃ _ => decided_pure _
      exact ⟨ps, hps.distinct, .token (hfilled.append_begins (by simp))⟩

/-! ## Expressions -/

/-- A name can stand wherever an expression can. -/
theorem wellFormed_name (name : String) : (Expr.name name).WellFormed := by
  rw [Expr.WellFormed]
  trivial

/-- A name can still be written where nothing has been. -/
theorem begins_name_filler : Slot.Begins (Expr.name filler).slots [] := by simp [Expr.slots]

/-- No arguments can stand wherever arguments can. -/
theorem wellFormed_noArguments : Expr.AllWellFormed [] := by
  rw [Expr.AllWellFormed]
  trivial

/-- An empty list of arguments can stand wherever arguments can. -/
theorem begins_argumentSlots_nil : Slot.Begins (Expr.argumentSlots []) [] := by
  simp [Expr.argumentSlots, Expr.listSlots]

/-- No statements can stand wherever statements can. -/
theorem allWellFormed_nil : Stmt.AllWellFormed [] := by
  rw [Stmt.AllWellFormed]
  trivial

/-- An empty block can stand wherever blocks can. -/
theorem begins_blockSlots_nil : Slot.Begins (Stmt.blockSlots []) [] := by
  simp [Stmt.blockSlots, Stmt.listSlots]

/-- Whether the parsers that open a level are decided, with trees that they might have parsed. -/
structure Nested.Decided (inner : Nested) : Prop where
  expression : ∀ s, s.Closed →
    Parse.Decided inner.expression (Viable Expr.slots Expr.WellFormed) s
  block : ∀ s, s.Closed → Parse.Decided inner.block (Viable Stmt.blockSlots Stmt.AllWellFormed) s
  /-- A conditional is only parsed when its first token is known to be there. -/
  conditional : ∀ s, s.Closed → s.current.token = .keyword .ifKey →
    Parse.Decided inner.conditional (Viable Conditional.slots Conditional.WellFormed) s

/-- Whether an expression can be an operand of a level. -/
def Operand (level : Nat) (e : Expr) : Prop := e.WellFormed ∧ level ≤ e.level

/-- Whether expressions can be arguments, of which there is at least one. -/
structure Arguments (es : List Expr) : Prop where
  nonempty : es ≠ []
  wellFormed : Expr.AllWellFormed es

namespace Arguments

variable {e : Expr} {es : List Expr}

/-- One argument is a list of arguments. -/
theorem singleton (h : e.WellFormed) : Arguments [e] :=
  ⟨by simp, by simp only [Expr.AllWellFormed]; exact ⟨h, trivial⟩⟩

/-- A further argument in front leaves a list of arguments. -/
theorem cons (h : e.WellFormed) (hes : Arguments es) : Arguments (e :: es) :=
  ⟨by simp, by simp only [Expr.AllWellFormed]; exact ⟨h, hes.wellFormed⟩⟩

end Arguments

section Expressions

variable {inner : Nested} (hsound : inner.Sound) (hinner : inner.Decided)

/-- Consumes arguments, of which there is at least one. -/
abbrev someArguments (inner : Nested) : Unit → Parse (List Expr) :=
  Loop.unbounded fun rs _ => argumentList inner rs

include hsound

/-- Arguments are read from their writing. -/
theorem someArguments_sound :
    Sound (someArguments inner ()) Expr.listSlots Arguments := by
  intro s es s' hs h
  unfold someArguments Loop.unbounded at h
  rw [rounds_bind] at h
  obtain ⟨hpasses, hne, hwf⟩ :=
    argumentList_sound hsound _ s s' es hs (size_le_length_rounds s) (by simp) h
  exact ⟨hpasses, hne, hwf⟩

include hinner

/-- What has been read of arguments can be gone on with until a token refuses it. -/
theorem someArguments_decided (hs : s.Closed) :
    Decided (someArguments inner ()) (Viable Expr.listSlots Arguments) s := by
  induction hsize : s.size using Nat.strong_induction_on generalizing s with
  | _ n ih =>
    refine .congr ?_ fun u hu _ => (argumentLoop hsound).unbounded_eq le_rfl () hu
    unfold argumentStep
    refine decided_bind hs (hinner.expression s hs) hsound.expression ?_ ?_
    · intro e us hwf hbegins
      exact ⟨[e], .singleton hwf, hbegins⟩
    · intro e ts s₁ hwf hfilled hread hs₁
      apply decided_current_bind
      split
      · next hcomma =>
        -- The comma is followed by further arguments, of which fewer tokens are left.
        refine decided_advance_bind hcomma (by simp) fun s₂ hnext => ?_
        have hread₂ := hread.trans hnext
        have hlt : s₂.size < n := hsize ▸ hread₂.size_lt hs (by simp)
        refine decided_bind_pure (ih _ hlt (hread₂.closed hs) rfl) ?_ _
        rintro us ⟨es, hes, hbegins⟩
        refine ⟨e :: es, hes.cons hwf, ?_⟩
        rw [Expr.listSlots_cons _ hes.nonempty]
        exact hfilled.append_begins hbegins.token
      · exact decided_pure _

/-- What has been read of arguments in parentheses can be gone on with until a token refuses it. -/
theorem arguments_decided (hs : s.Closed) :
    Decided (arguments inner) (Viable Expr.argumentSlots Expr.AllWellFormed) s := by
  unfold arguments
  refine decided_expect_bind (by simp) ⟨[], wellFormed_noArguments, begins_argumentSlots_nil⟩
    fun s₁ hopen => decided_current_bind ?_
  have hs₁ := hopen.closed hs
  simp only
  split
  · -- There are no arguments.
    rw [pure_bind]
    refine decided_expect_bind (by simp) ?_ fun s₂ _ => decided_pure _
    exact ⟨[], wellFormed_noArguments, by simp [Expr.argumentSlots, Expr.listSlots]⟩
  · -- The arguments are decided one by one, and closed by a parenthesis.
    refine decided_rounds_bind (fun rs (_ : Unit) => argumentList inner rs) (i := ()) ?_
    have hsome := someArguments_decided hsound hinner hs₁
    refine decided_bind hs₁ hsome (someArguments_sound hsound) ?_ ?_
    · intro es us hes hbegins
      exact ⟨es, hes.wellFormed, .token (hbegins.append (by simp))⟩
    · intro es ts s₂ hes hfilled _ _
      refine decided_expect_bind (by simp) ?_ fun s₃ _ => decided_pure _
      exact ⟨es, hes.wellFormed, .token (hfilled.append_begins (by simp))⟩

/-- Behind what can be called, arguments may follow. -/
theorem callSuffix_decided {callee : Expr} {ts : List Token} (hs : s.Closed)
    (hfilled : Slot.Filled callee.slots ts) (hcallable : callee.Callable)
    (hwf : callee.WellFormed) : Decided (callSuffix inner callee)
      (fun us => Viable Expr.slots (Operand 10) (ts ++ us)) s := by
  unfold callSuffix
  apply decided_current_bind
  split
  · refine decided_bind_pure (arguments_decided hsound hinner hs) ?_ _
    rintro us ⟨es, hes, hbegins⟩
    refine ⟨.call false callee es, ⟨?_, le_rfl⟩, ?_⟩
    · rw [Expr.WellFormed]
      exact ⟨fun _ => hcallable, hwf, hes⟩
    · rw [Expr.slots]
      exact hfilled.append_begins hbegins
  · exact decided_pure _

/-- Behind an opening parenthesis stands an expression, and what follows it may call it. -/
theorem paren_decided (hs : s.Closed) :
    Decided (do
      let e ← inner.expression
      expect (.symbol .rightParen)
      callSuffix inner (.paren e))
      (fun us => Viable Expr.slots (Operand 10) (.symbol .leftParen :: us)) s := by
  -- Whatever stands behind the parenthesis so far, the rest of the expression may follow.
  have hparen : ∀ (e : Expr) us, e.WellFormed → Slot.Begins (e.slots ++ [.symbol .rightParen]) us →
      Viable Expr.slots (Operand 10) (.symbol .leftParen :: us) := by
    intro e us hwf hbegins
    refine ⟨.paren e, ⟨by rwa [Expr.WellFormed], le_rfl⟩, ?_⟩
    rw [Expr.slots]
    exact hbegins.token
  refine decided_bind hs (hinner.expression s hs) hsound.expression ?_ ?_
  · intro e us hwf hbegins
    exact hparen e us hwf (hbegins.append (by simp))
  · intro e ts s₁ hwf hfilled _ hs₁
    refine decided_expect_bind (by simp) ?_ fun s₂ hclose => ?_
    · exact hparen e _ hwf (hfilled.append_begins (by simp))
    · -- What stands between the parentheses may be called.
      have hfilled' : Slot.Filled (Expr.paren e).slots
          (.symbol .leftParen :: (ts ++ [.symbol .rightParen])) := by
        rw [Expr.slots]
        exact .token (hfilled.append (.token .nil))
      have hwf' : (Expr.paren e).WellFormed := by rwa [Expr.WellFormed]
      refine (callSuffix_decided hsound hinner (hclose.closed hs₁) hfilled' trivial hwf').mono ?_
      intro us h
      simpa using h

/-- Behind a hash stand parameters and a block, and what follows them may call them. -/
theorem lambda_decided (hs : s.Closed) :
    Decided (do
      let ps ← parameters
      let body ← inner.block
      callSuffix inner (.lambda ps body))
      (fun us => Viable Expr.slots (Operand 10) (.symbol .hash :: us)) s := by
  -- Whatever stands behind the hash so far, the rest of a lambda may follow.
  have hlambda : ∀ ps body us, Parameter.Distinct ps → Stmt.AllWellFormed body →
      Slot.Begins (Parameter.allSlots ps ++ Stmt.blockSlots body) us →
      Viable Expr.slots (Operand 10) (.symbol .hash :: us) := by
    intro ps body us hps hbody hbegins
    refine ⟨.lambda ps body, ⟨?_, le_rfl⟩, ?_⟩
    · rw [Expr.WellFormed]
      exact ⟨hps, hbody⟩
    · rw [Expr.slots]
      exact hbegins.token
  refine decided_bind hs (parameters_decided hs) parameters_sound ?_ ?_
  · -- Behind the parameters there might be an empty body.
    intro ps us hps hbegins
    exact hlambda ps [] us hps allWellFormed_nil (hbegins.append begins_blockSlots_nil)
  · intro ps ts s₁ hps hfilled _ hs₁
    refine decided_bind hs₁ (hinner.block s₁ hs₁) hsound.block ?_ ?_
    · intro body us hbody hbegins
      exact hlambda ps body _ hps hbody (hfilled.append_begins hbegins)
    · intro body ts' s₂ hbody hfilled' _ hs₂
      -- The lambda may be called.
      have hfilled₂ : Slot.Filled (Expr.lambda ps body).slots (.symbol .hash :: (ts ++ ts')) := by
        rw [Expr.slots]
        exact .token (hfilled.append hfilled')
      have hwf : (Expr.lambda ps body).WellFormed := by
        rw [Expr.WellFormed]
        exact ⟨hps, hbody⟩
      refine (callSuffix_decided hsound hinner hs₂ hfilled₂ trivial hwf).mono ?_
      intro us h
      simpa using h

/-- Behind an opening bracket stand an expression and the arguments for it. -/
theorem tracedCall_decided (hs : s.Closed) :
    Decided (do
      let callee ← inner.expression
      expect (.symbol .rightBracket)
      return Expr.call true callee (← arguments inner))
      (fun us => Viable Expr.slots (Operand 10) (.symbol .leftBracket :: us)) s := by
  -- Whatever stands behind the bracket so far, the rest of a traced call may follow.
  have hcall : ∀ (callee : Expr) es us, callee.WellFormed → Expr.AllWellFormed es →
      Slot.Begins (callee.slots ++ .symbol .rightBracket :: Expr.argumentSlots es) us →
      Viable Expr.slots (Operand 10) (.symbol .leftBracket :: us) := by
    intro callee es us hwf hes hbegins
    refine ⟨.call true callee es, ⟨?_, le_rfl⟩, ?_⟩
    · rw [Expr.WellFormed]
      exact ⟨fun htraced => absurd htraced (by simp), hwf, hes⟩
    · rw [Expr.slots]
      exact hbegins.token
  have hbracket : Slot.Begins (.symbol .rightBracket :: Expr.argumentSlots []) [] := by
    simpa using begins_argumentSlots_nil
  refine decided_bind hs (hinner.expression s hs) hsound.expression ?_ ?_
  · -- In the brackets nothing is known of the arguments, and there may be none.
    intro callee us hwf hbegins
    exact hcall callee [] us hwf wellFormed_noArguments (hbegins.append hbracket)
  · intro callee ts s₁ hwf hfilled _ hs₁
    refine decided_expect_bind (by simp) ?_ fun s₂ hclose => ?_
    · exact hcall callee [] _ hwf wellFormed_noArguments (hfilled.append_begins hbracket)
    · have harguments := arguments_decided hsound hinner (hclose.closed hs₁)
      refine decided_bind_pure harguments ?_ _
      rintro us ⟨es, hes, hbegins⟩
      exact hcall callee es _ hwf hes (hfilled.append_begins hbegins.token)

/-- What has been read of an operand of the tightest level can be gone on with until a token refuses
it. -/
theorem primary_decided (hs : s.Closed) :
    Decided (primary inner) (Viable Expr.slots (Operand 10)) s := by
  -- Where nothing has been read, a name might stand.
  have hV : Viable Expr.slots (Operand 10) [] :=
    ⟨.name filler, ⟨wellFormed_name filler, le_rfl⟩, begins_name_filler⟩
  unfold primary
  apply decided_current_bind
  cases hl : literal? s.current.token with
  | some l =>
    have htoken := literal?_eq_some hl
    -- The token of a literal is not the end of the source.
    have hne : l.token ≠ .endOfFile := by cases l <;> simp [Literal.token]
    exact decided_advance_bind htoken hne fun s₁ _ => decided_pure _
  | none =>
    simp only
    -- What is no literal starts with a name, a parenthesis, a hash or a bracket.
    cases htoken : s.current.token with
    | identifier name =>
      refine decided_advance_bind htoken (by simp) fun s₁ hread => ?_
      have hfilled : Slot.Filled (Expr.name name).slots [.identifier name] := by
        rw [Expr.slots]
        exact .token .nil
      exact callSuffix_decided hsound hinner (hread.closed hs) hfilled trivial
        (wellFormed_name name)
    | symbol sym =>
      cases sym with
      | leftParen =>
        exact decided_advance_bind htoken (by simp) fun s₁ hopen =>
          paren_decided hsound hinner (hopen.closed hs)
      | hash =>
        exact decided_advance_bind htoken (by simp) fun s₁ hhash =>
          lambda_decided hsound hinner (hhash.closed hs)
      | leftBracket =>
        exact decided_advance_bind htoken (by simp) fun s₁ hopen =>
          tracedCall_decided hsound hinner (hopen.closed hs)
      | _ => exact decided_fail fun _ => hV
    | endOfFile | keyword | str | int | float => exact decided_fail fun _ => hV

/-- What has been read of an operand with signs in front can be gone on with until a token refuses
it. -/
theorem unary_decided (hs : s.Closed) :
    Decided (unary inner) (Viable Expr.slots (Operand 9)) s := by
  unfold unary
  apply decided_current_bind
  cases hop : unaryOp? s.current.token with
  | some op =>
    refine decided_advance_bind (unaryOp?_eq_some hop) (by simp) fun s₁ hread => ?_
    refine decided_bind_pure (primary_decided hsound hinner (hread.closed hs)) ?_ _
    rintro us ⟨e, ⟨hwf, hlevel⟩, hbegins⟩
    refine ⟨.unary op e, ⟨?_, le_rfl⟩, ?_⟩
    · rw [Expr.WellFormed]
      exact ⟨hlevel, hwf⟩
    · rw [Expr.slots]
      exact hbegins.token
  | none =>
    refine (primary_decided hsound hinner hs).mono ?_
    rintro us ⟨e, ⟨hwf, hlevel⟩, hbegins⟩
    exact ⟨e, ⟨hwf, by omega⟩, hbegins⟩

/-- What has been read of an operand with types behind can be gone on with until a token refuses
it. -/
theorem cast_decided (hs : s.Closed) :
    Decided (cast inner) (Viable Expr.slots (Operand 8)) s := by
  unfold cast
  refine decided_bind hs (unary_decided hsound hinner hs) (unary_sound hsound) ?_ ?_
  · rintro e us ⟨hwf, hlevel⟩ hbegins
    exact ⟨e, ⟨hwf, by omega⟩, hbegins⟩
  · rintro e ts s₁ ⟨hwf, hlevel⟩ hfilled _ hs₁
    apply decided_current_bind
    split
    · next harrow =>
      refine decided_advance_bind harrow (by simp) fun s₂ hread => decided_current_bind ?_
      -- Any type can follow, such as that of integers.
      have hV : Viable Expr.slots (Operand 8) (ts ++ [.symbol .arrow]) := by
        refine ⟨.cast e .int, ⟨?_, le_rfl⟩, ?_⟩
        · rw [Expr.WellFormed]
          exact ⟨hlevel, hwf⟩
        · rw [Expr.slots]
          exact hfilled.append_begins (by simp)
      -- Behind the arrow the name of any type will do.
      cases htarget : s₂.current.token with
      | keyword k =>
        cases k with
        | type t => exact decided_advance_bind htarget (by simp) fun s₃ _ => decided_pure _
        | _ => exact decided_fail fun _ => hV
      | endOfFile | symbol | identifier | str | int | float => exact decided_fail fun _ => hV
    · exact decided_pure _

omit hsound hinner in
/-- The operators of a level group to the left, behind an operand that has been read. -/
theorem chain_decided {level : Nat} {operand : Parse Expr}
    (hoperand : Sound operand Expr.slots (Operand (level + 1)))
    (hdecided : ∀ s, s.Closed → Decided operand (Viable Expr.slots (Operand (level + 1))) s)
    {left : Expr} {ts : List Token} (hs : s.Closed) (hleft : Operand level left)
    (hfilled : Slot.Filled left.slots ts) :
    Decided (Loop.unbounded (fun rs left => chain level operand rs left) left)
      (fun us => Viable Expr.slots (Operand level) (ts ++ us)) s := by
  induction hsize : s.size using Nat.strong_induction_on generalizing s left ts with
  | _ n ih =>
    refine .congr ?_ fun u hu _ => (chainLoop hoperand).unbounded_eq (by simp) left hu
    unfold chainStep
    apply decided_current_bind
    cases hop : binaryOp? level s.current.token with
    | none => exact decided_pure _
    | some op =>
      obtain ⟨htoken, rfl⟩ := binaryOp?_eq_some hop
      -- What has been read so far becomes the left operand of what follows.
      have hbinary : ∀ right, Operand (op.level + 1) right →
          Operand op.level (.binary op left right) := by
        rintro right ⟨hwf, hlevel⟩
        refine ⟨?_, le_rfl⟩
        rw [Expr.WellFormed]
        exact ⟨hleft.2, hlevel, hleft.1, hwf⟩
      refine decided_advance_bind htoken (by simp) fun s₁ hread => ?_
      have hs₁ := hread.closed hs
      refine decided_bind hs₁ (hdecided s₁ hs₁) hoperand ?_ ?_
      · intro right us hright hbegins
        refine ⟨.binary op left right, hbinary right hright, ?_⟩
        rw [Expr.slots]
        exact hfilled.append_begins hbegins.token
      · intro right ts' s₂ hright hfilled' hread' hs₂
        -- Behind the operator and its operand fewer tokens are left.
        have hlt : s₂.size < n := hsize ▸ (hread.trans hread').size_lt hs (by simp)
        have hfilled₂ : Slot.Filled (Expr.binary op left right).slots
            (ts ++ .symbol op.symbol :: ts') := by
          rw [Expr.slots]
          exact hfilled.append (.token hfilled')
        refine (ih _ hlt hs₂ (hbinary right hright) hfilled₂ rfl).mono ?_
        intro us h
        simpa using h

/-- What has been read of a row of operators can be gone on with until a token refuses it, level by
level from the tightest one. -/
theorem ladder_decided (n : Nat) : ∀ k, k + n = 8 → ∀ {s : State}, s.Closed →
    Decided (ladder (cast inner) (List.range' k n)) (Viable Expr.slots (Operand k)) s := by
  induction n with
  | zero =>
    intro k hk s hs
    obtain rfl : k = 8 := hk
    exact cast_decided hsound hinner hs
  | succ n ih =>
    intro k hk s hs
    -- The operands of a level are what the tighter levels read.
    have htighter := ladder_sound hsound n (k + 1) (by omega)
    have hdecided : ∀ s, s.Closed → Decided _ _ s := fun s hs => ih (k + 1) (by omega) hs
    rw [List.range'_succ, ladder]
    refine decided_bind hs (hdecided s hs) htighter ?_ ?_
    · rintro left us ⟨hwf, hlevel⟩ hbegins
      exact ⟨left, ⟨hwf, by omega⟩, hbegins⟩
    · rintro left ts s₁ ⟨hwf, hlevel⟩ hfilled _ hs₁
      exact chain_decided htighter hdecided hs₁ ⟨hwf, by omega⟩ hfilled

omit hsound in
/-- Behind the sign of an assignment stands the value. -/
theorem assignment_decided {target : String} {ts : List Token} (hs : s.Closed)
    (hfilled : Slot.Filled [.dollar, .name target, .symbol .assign] ts) :
    Decided (assignment inner target)
      (fun us => Viable Expr.slots Expr.WellFormed (ts ++ us)) s := by
  unfold assignment
  refine decided_bind_pure (hinner.expression s hs) ?_ _
  rintro us ⟨e, hwf, hbegins⟩
  refine ⟨.assign target e, by rwa [Expr.WellFormed], ?_⟩
  rw [Expr.slots]
  exact hfilled.append_begins hbegins

/-- What has been read of an expression can be gone on with until a token refuses it. -/
theorem expressionBody_decided (hs : s.Closed) :
    Decided (expressionBody inner) (Viable Expr.slots Expr.WellFormed) s := by
  unfold expressionBody
  apply decided_current_bind
  split
  · -- A dollar sign: an assignment must follow.
    next hdollar =>
    -- Behind the dollar sign a name, an equality sign and a value may follow.
    have hassign : ∀ target us, Slot.Begins [.name target] us →
        Viable Expr.slots Expr.WellFormed (.symbol .dollar :: us) := by
      intro target us hbegins
      refine ⟨.assign target (.name filler), ?_, ?_⟩
      · rw [Expr.WellFormed]
        exact wellFormed_name filler
      · rw [Expr.slots]
        exact .dollar (hbegins.append (by simpa using begins_name_filler))
    refine decided_advance_bind hdollar (by simp) fun s₁ hread => ?_
    have hs₁ := hread.closed hs
    refine decided_bind hs₁ identifier_decided identifier_sound ?_ ?_
    · intro target us _ hbegins
      exact hassign target us hbegins
    · intro target ts s₂ _ hfilled _ hs₂
      refine decided_expect_bind (by simp) ?_ fun s₃ hread' => ?_
      · exact hassign target _ (by simpa using hfilled.begins)
      · have hfilled' : Slot.Filled [.dollar, .name target, .symbol .assign]
            (.symbol .dollar :: (ts ++ [.symbol .assign])) :=
          .dollar (hfilled.append (.token .nil))
        refine (assignment_decided hinner (hread'.closed hs₂) hfilled').mono ?_
        intro us h
        simpa using h
  · -- Without a dollar sign, what stands in front is read as an expression.
    have hladder := ladder_decided hsound hinner 7 1 rfl hs
    refine decided_bind hs hladder (ladder_sound hsound 7 1 rfl) ?_ ?_
    · rintro left us ⟨hwf, -⟩ hbegins
      exact ⟨left, hwf, hbegins⟩
    · rintro left ts s₁ ⟨hwf, -⟩ hfilled _ hs₁
      apply decided_current_bind
      split
      · next hassign =>
        -- Only a name can be assigned to, and its slot is the target's.
        cases left with
        | name target =>
          refine decided_advance_bind hassign (by simp) fun s₂ hread => ?_
          have hfilled' : Slot.Filled [.dollar, .name target, .symbol .assign]
              (ts ++ [.symbol .assign]) := by
            rw [Expr.slots] at hfilled
            exact .blank (hfilled.append (.token .nil))
          refine (assignment_decided hinner (hread.closed hs₁) hfilled').mono ?_
          intro us h
          simpa using h
        | assign | binary | cast | unary | call | lambda | paren | literal =>
          exact decided_fail fun _ => ⟨_, hwf, by simpa using hfilled.begins⟩
      · exact decided_pure _

end Expressions

end Brisk.Parse
