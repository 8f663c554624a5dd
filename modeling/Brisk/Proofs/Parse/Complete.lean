import Brisk.Proofs.Parse.Follow

/-!
# What is written is parsed

A parser that stands before the slots of a well-formed tree passes them and yields the tree,
provided that the tree keeps the limit on nesting (`program_complete`).

Within a level the proof is an induction on the tree, in which the first token of a part selects the
branch that reads the part, and the token behind it ends the part. The parsers one level further in
are complete for the trees that need fewer levels (`Nested.Complete`), by induction on the levels
that may still be opened (`levels_complete`).
-/

namespace Brisk.Parse

variable {s s' s'' : State}

/-! ## Parameters -/

/-- A mark that may be missing is read if the name behind it follows. -/
theorem mutability_complete {mutable : Bool} {name : String}
    (h : Passes (if mutable then [.keyword .mutKey] else []) s s')
    (hname : s'.current.token = .identifier name) : mutability s = .ok mutable s' := by
  apply mutability_eq_ok_iff.mpr
  cases mutable with
  | true => exact .inl ⟨rfl, Passes.single_iff.mp h⟩
  | false =>
    obtain rfl := Passes.nil_iff.mp h
    exact .inr ⟨rfl, by simp [hname], rfl⟩

/-- Parameters that are written, at least one of them, are read back if their names are distinct and
none has been seen. -/
theorem parameterList_complete (rs : List Lexed) : ∀ (seen : List String) (ps : List Parameter)
    (s s' : State), s.Closed → s.size ≤ rs.length → rs ≠ [] → ps ≠ [] →
    Parameter.Distinct ps → (∀ p ∈ ps, p.name ∉ seen) → Passes (Parameter.listSlots ps) s s' →
    s'.current.token = .symbol .rightParen → parameterList seen rs s = .ok ps s' := by
  induction rs with
  | nil =>
    intro seen ps s s' _ _ hrs
    exact absurd rfl hrs
  | cons r rs ih =>
    intro seen ps s s' hs hsize _ hps hdistinct hfresh h hclose
    obtain ⟨⟨name, mutable⟩, ps, rfl⟩ := List.exists_cons_of_ne_nil hps
    have hname : name ∉ seen := hfresh ⟨name, mutable⟩ (by simp)
    unfold parameterList
    -- The parameter itself, whatever follows it.
    have hparameter : ∀ s₂, Passes (Parameter.slots ⟨name, mutable⟩) s s₂ →
        ∃ s₁, mutability s = .ok mutable s₁ ∧ Reads s₁ [.identifier name] s₂ := by
      intro s₂ hp
      obtain ⟨s₁, hm, hn⟩ := Passes.append_iff.mp hp
      have hread := Passes.single_iff.mp hn
      exact ⟨s₁, mutability_complete hm hread.current_eq, hread⟩
    cases ps with
    -- The last parameter, which the closing parenthesis follows.
    | nil =>
      rw [Parameter.listSlots] at h
      obtain ⟨s₁, hm, hn⟩ := hparameter s' h
      have ht := hn.current_eq
      rw [bind_of_ok hm, position_bind, current_bind, ht]
      apply (advance_bind_eq_ok_iff ht (by simp)).mpr
      refine ⟨s', hn, ?_⟩
      rw [if_neg hname, current_bind, hclose]
      rfl
    -- A comma follows, and the others are distinct from this one and from those already seen.
    | cons p ps =>
      rw [Parameter.listSlots_cons _ (by simp)] at h
      obtain ⟨s₂, hp, h⟩ := Passes.append_iff.mp h
      obtain ⟨s₃, hcomma, h⟩ := Passes.token_iff.mp h
      obtain ⟨s₁, hm, hn⟩ := hparameter s₂ hp
      have ht := hn.current_eq
      have ht' := hcomma.current_eq
      obtain ⟨hrs, hsize₃⟩ := hp.rounds_left hcomma hs (Parameter.tokens_slots_ne_nil _) hsize
      unfold Parameter.Distinct at hdistinct
      rw [List.map_cons, List.nodup_cons] at hdistinct
      have hlist : parameterList (name :: seen) rs s₃ = .ok (p :: ps) s' := by
        refine ih (name :: seen) (p :: ps) s₃ s' (hcomma.closed (hp.closed hs)) hsize₃ hrs
          (by simp) hdistinct.2 ?_ h hclose
        intro q hq hmem
        rcases List.mem_cons.mp hmem with hqname | hmem
        · exact hdistinct.1 (List.mem_map.mpr ⟨q, hq, hqname⟩)
        · exact hfresh q (List.mem_cons_of_mem _ hq) hmem
      rw [bind_of_ok hm, position_bind, current_bind, ht]
      apply (advance_bind_eq_ok_iff ht (by simp)).mpr
      refine ⟨s₂, hn, ?_⟩
      rw [if_neg hname, current_bind, if_pos ht']
      apply (advance_bind_eq_ok_iff ht' (by simp)).mpr
      refine ⟨s₃, hcomma, ?_⟩
      rw [bind_of_ok hlist]
      rfl

/-- Parameters in parentheses are read back, be there some or none. -/
theorem parameters_complete {ps : List Parameter} (hs : s.Closed)
    (hdistinct : Parameter.Distinct ps) (h : Passes (Parameter.allSlots ps) s s') :
    parameters s = .ok ps s' := by
  unfold Parameter.allSlots at h
  obtain ⟨s₁, hopen, h⟩ := Passes.token_iff.mp h
  obtain ⟨s₂, hlist, h⟩ := Passes.append_iff.mp h
  have hclose := Passes.single_iff.mp h
  have ht := hclose.current_eq
  unfold parameters
  rw [bind_of_ok (expect_of_reads hopen), current_bind]
  simp only
  cases ps with
  -- Without parameters the list is closed at once.
  | nil =>
    rw [Parameter.listSlots] at hlist
    obtain rfl := Passes.nil_iff.mp hlist
    rw [if_pos ht, bind_of_ok (pure_eq_ok_iff.mpr ⟨rfl, rfl⟩)]
    exact bind_of_ok (expect_of_reads hclose)
  | cons p ps =>
    have hne : s₁.current.token ≠ .symbol .rightParen := by
      -- A parameter starts with its mark or its name, so the list is not taken for an empty one.
      have hp : ∃ s₂, Passes p.slots s₁ s₂ := by
        cases ps with
        | nil =>
          rw [Parameter.listSlots] at hlist
          exact ⟨s₂, hlist⟩
        | cons p' ps =>
          rw [Parameter.listSlots_cons _ (by simp)] at hlist
          obtain ⟨s₃, hp, -⟩ := Passes.append_iff.mp hlist
          exact ⟨s₃, hp⟩
      obtain ⟨s₃, hp⟩ := hp
      obtain ⟨name, mutable⟩ := p
      unfold Parameter.slots at hp
      cases mutable <;> simp [current_eq_of_passes hp]
    -- The parameters are distinct, and none has been seen.
    have hparsed := parameterList_complete _ [] (p :: ps) s₁ s₂ (hopen.closed hs)
      (size_le_length_rounds s₁) (by simp) (by simp) hdistinct (by simp) hlist ht
    rw [if_neg hne, rounds_bind, bind_of_ok hparsed]
    exact bind_of_ok (expect_of_reads hclose)

/-! ## Expressions -/

/-- Whether the parsers that open a level read all trees that need less than `n` levels further
in. -/
structure Nested.Complete (inner : Nested) (n : Nat) : Prop where
  expression : ∀ (e : Expr) (s s' : State), s.Closed → e.WellFormed → e.nesting < n →
    Passes e.slots s s' → EndsExpression s'.current.token → inner.expression s = .ok e s'
  block : ∀ (ss : List Stmt) (s s' : State), s.Closed → Stmt.AllWellFormed ss →
    Stmt.listNesting ss < n → Passes (Stmt.blockSlots ss) s s' → inner.block s = .ok ss s'
  conditional : ∀ (c : Conditional) (s s' : State), s.Closed → c.WellFormed → c.nesting < n →
    Passes c.slots s s' → s'.current.token ≠ .keyword .elseKey → inner.conditional s = .ok c s'

/-- The sign of an operator is read as that operator. -/
theorem unaryOp?_symbol (op : UnaryOp) : unaryOp? (.symbol op.symbol) = some op := by
  cases op <;> rfl

/-- The token of a literal is read as that literal. -/
theorem literal?_token (l : Literal) : literal? l.token = some l := by cases l <;> rfl

section Expressions

variable {inner : Nested} {n : Nat} (hinner : inner.Complete n)
include hinner

/-- Arguments that are written, at least one of them, are read back if they keep the levels that are
left. -/
theorem argumentList_complete (rs : List Lexed) : ∀ (es : List Expr) (s s' : State), s.Closed →
    s.size ≤ rs.length → rs ≠ [] → es ≠ [] → Expr.AllWellFormed es → Expr.listNesting es ≤ n →
    Passes (Expr.listSlots es) s s' → s'.current.token = .symbol .rightParen →
    argumentList inner rs s = .ok es s' := by
  induction rs with
  | nil =>
    intro es s s' _ _ hrs
    exact absurd rfl hrs
  | cons r rs ih =>
    intro es s s' hs hsize _ hes hwf hnesting h hclose
    obtain ⟨e, es, rfl⟩ := List.exists_cons_of_ne_nil hes
    rw [Expr.AllWellFormed] at hwf
    rw [Expr.listNesting] at hnesting
    unfold argumentList
    cases es with
    -- The last argument, which the closing parenthesis ends.
    | nil =>
      rw [Expr.listSlots] at h
      have he := hinner.expression e s s' hs hwf.1 (by omega) h
        (by rw [hclose]; exact endsExpression_rightParen)
      rw [bind_of_ok he, current_bind, hclose]
      rfl
    -- The comma ends the argument, and the others follow.
    | cons e' es =>
      rw [Expr.listSlots_cons _ (by simp)] at h
      obtain ⟨s₁, hpasses, h⟩ := Passes.append_iff.mp h
      obtain ⟨s₂, hcomma, h⟩ := Passes.token_iff.mp h
      have ht := hcomma.current_eq
      obtain ⟨hrs, hsize₂⟩ := hpasses.rounds_left hcomma hs e.tokens_slots_ne_nil hsize
      have he := hinner.expression e s s₁ hs hwf.1 (by omega) hpasses
        (by rw [ht]; exact endsExpression_comma)
      have hlist := ih (e' :: es) s₂ s' (hcomma.closed (hpasses.closed hs)) hsize₂ hrs
        (by simp) hwf.2 (by omega) h hclose
      rw [bind_of_ok he, current_bind, if_pos ht, advance_bind_of_reads hcomma, bind_of_ok hlist]
      rfl

/-- Arguments in parentheses are read back, be there some or none. -/
theorem arguments_complete {es : List Expr} (hs : s.Closed) (hwf : Expr.AllWellFormed es)
    (hnesting : Expr.listNesting es ≤ n) (h : Passes (Expr.argumentSlots es) s s') :
    arguments inner s = .ok es s' := by
  unfold Expr.argumentSlots at h
  obtain ⟨s₁, hopen, h⟩ := Passes.token_iff.mp h
  obtain ⟨s₂, hlist, h⟩ := Passes.append_iff.mp h
  have hclose := Passes.single_iff.mp h
  have ht := hclose.current_eq
  unfold arguments
  rw [bind_of_ok (expect_of_reads hopen), current_bind]
  simp only
  cases es with
  -- Without arguments the list is closed at once.
  | nil =>
    rw [Expr.listSlots] at hlist
    obtain rfl := Passes.nil_iff.mp hlist
    rw [if_pos ht, bind_of_ok (pure_eq_ok_iff.mpr ⟨rfl, rfl⟩)]
    exact bind_of_ok (expect_of_reads hclose)
  | cons e es =>
    have hne : s₁.current.token ≠ .symbol .rightParen := by
      -- An argument starts with a token of an expression, which no closing parenthesis is.
      have hstarts : startsExpression s₁.current.token = true := by
        rw [Expr.AllWellFormed] at hwf
        cases es with
        | nil =>
          rw [Expr.listSlots] at hlist
          exact (first_token e hwf.1 hlist).1
        | cons e' es =>
          rw [Expr.listSlots_cons _ (by simp)] at hlist
          obtain ⟨s₃, he, -⟩ := Passes.append_iff.mp hlist
          exact (first_token e hwf.1 he).1
      intro hparen
      rw [hparen] at hstarts
      exact absurd hstarts (by decide)
    have hparsed := argumentList_complete hinner _ (e :: es) s₁ s₂ (hopen.closed hs)
      (size_le_length_rounds s₁) (by simp) (by simp) hwf hnesting hlist ht
    rw [if_neg hne, rounds_bind, bind_of_ok hparsed]
    exact bind_of_ok (expect_of_reads hclose)

/-- What can be called is read up to where arguments may follow. -/
theorem callable_complete {e : Expr} (hs : s.Closed) (hcallable : e.Callable) (hwf : e.WellFormed)
    (hnesting : e.nesting ≤ n) (h : Passes e.slots s s') :
    primary inner s = callSuffix inner e s' := by
  unfold primary
  rw [current_bind]
  cases e with
  | name name =>
    rw [Expr.slots] at h
    have hread := Passes.single_iff.mp h
    rw [hread.current_eq]
    exact advance_bind_of_reads hread _
  | paren e =>
    rw [Expr.slots] at h
    rw [Expr.WellFormed] at hwf
    rw [Expr.nesting] at hnesting
    obtain ⟨s₁, hopen, h⟩ := Passes.token_iff.mp h
    obtain ⟨s₂, he, h⟩ := Passes.append_iff.mp h
    have hclose := Passes.single_iff.mp h
    -- The closing parenthesis ends the expression.
    have hinside := hinner.expression e s₁ s₂ (hopen.closed hs) hwf (by omega) he
      (by rw [hclose.current_eq]; exact endsExpression_rightParen)
    have hexpect := expect_of_reads hclose
    rw [hopen.current_eq]
    refine (advance_bind_of_reads hopen _).trans ?_
    rw [bind_of_ok hinside, bind_of_ok hexpect]
  | lambda ps body =>
    rw [Expr.slots] at h
    rw [Expr.WellFormed] at hwf
    rw [Expr.nesting] at hnesting
    obtain ⟨s₁, hhash, h⟩ := Passes.token_iff.mp h
    obtain ⟨s₂, hps, hbody⟩ := Passes.append_iff.mp h
    have hs₁ := hhash.closed hs
    have hparameters := parameters_complete hs₁ hwf.1 hps
    have hblock := hinner.block body s₂ s' (hps.closed hs₁) hwf.2 (by omega) hbody
    rw [hhash.current_eq]
    refine (advance_bind_of_reads hhash _).trans ?_
    rw [bind_of_ok hparameters, bind_of_ok hblock]
  | assign | binary | cast | unary | call | literal =>
    exact absurd hcallable (by simp [Expr.Callable])

/-- An operand of the tightest level is read back up to the token behind it, which must not go on
with it as a call. -/
theorem primary_complete {e : Expr} (hs : s.Closed) (hwf : e.WellFormed) (hnesting : e.nesting ≤ n)
    (hlevel : 10 ≤ e.level) (h : Passes e.slots s s')
    (hend : s'.current.token ≠ .symbol .leftParen) : primary inner s = .ok e s' := by
  -- What can be called is not called here, as no parenthesis follows.
  have hcallable : e.Callable → primary inner s = .ok e s' := by
    intro hcallable
    rw [callable_complete hinner hs hcallable hwf hnesting h]
    unfold callSuffix
    rw [current_bind, if_neg hend]
    rfl
  cases e with
  | name | paren | lambda => exact hcallable trivial
  -- A literal has a token of its own.
  | literal l =>
    rw [Expr.slots] at h
    have hread := Passes.single_iff.mp h
    unfold primary
    rw [current_bind, hread.current_eq, literal?_token]
    exact advance_bind_of_reads hread _
  | call traced callee es =>
    rw [Expr.WellFormed] at hwf
    cases traced with
    -- The callee is read first, and the parenthesis that follows makes it a call.
    | false =>
      rw [Expr.slots] at h
      rw [Expr.nesting] at hnesting
      obtain ⟨s₁, hcallee, hes⟩ := Passes.append_iff.mp h
      have hopen := current_eq_of_passes hes
      have harguments := arguments_complete hinner (hcallee.closed hs) hwf.2.2 (by omega) hes
      rw [callable_complete hinner hs (hwf.1 rfl) hwf.2.1 (by omega) hcallee]
      unfold callSuffix
      rw [current_bind, if_pos hopen, bind_of_ok harguments]
      rfl
    -- The bracket ends the callee, and arguments must follow.
    | true =>
      rw [Expr.slots] at h
      rw [Expr.nesting] at hnesting
      obtain ⟨s₁, hopen, h⟩ := Passes.token_iff.mp h
      obtain ⟨s₂, hcallee, h⟩ := Passes.append_iff.mp h
      obtain ⟨s₃, hclose, hes⟩ := Passes.token_iff.mp h
      have hs₁ := hopen.closed hs
      have hinside := hinner.expression callee s₁ s₂ hs₁ hwf.2.1 (by omega) hcallee
        (by rw [hclose.current_eq]; exact endsExpression_rightBracket)
      have hexpect := expect_of_reads hclose
      have harguments :=
        arguments_complete hinner (hclose.closed (hcallee.closed hs₁)) hwf.2.2 (by omega) hes
      unfold primary
      rw [current_bind, hopen.current_eq]
      refine (advance_bind_of_reads hopen _).trans ?_
      rw [bind_of_ok hinside, bind_of_ok hexpect, bind_of_ok harguments]
      rfl
  -- All other trees are of looser levels.
  | assign | cast | unary => exact absurd hlevel (by simp [Expr.level])
  | binary op left right => exact absurd (level_binary_lt op left right) (by omega)

/-- An operand with signs in front is read back. -/
theorem unary_complete {e : Expr} (hs : s.Closed) (hwf : e.WellFormed) (hnesting : e.nesting ≤ n)
    (hlevel : 9 ≤ e.level) (h : Passes e.slots s s')
    (hend : s'.current.token ≠ .symbol .leftParen) : unary inner s = .ok e s' := by
  unfold unary
  rw [current_bind]
  -- Only an operator in front of an operand has level nine, and a tighter tree does not start with
  -- one.
  by_cases hlevel' : 10 ≤ e.level
  · rw [(first_token e hwf h).2.2 hlevel']
    exact primary_complete hinner hs hwf hnesting hlevel' h hend
  · cases e with
    | unary op operand =>
      rw [Expr.slots] at h
      rw [Expr.WellFormed] at hwf
      rw [Expr.nesting] at hnesting
      obtain ⟨s₁, hop, hoperand⟩ := Passes.token_iff.mp h
      have hprimary :=
        primary_complete hinner (hop.closed hs) hwf.2 hnesting hwf.1 hoperand hend
      rw [hop.current_eq, unaryOp?_symbol]
      refine (advance_bind_of_reads hop _).trans ?_
      rw [bind_of_ok hprimary]
      rfl
    | assign | cast => exact absurd hlevel (by simp [Expr.level])
    | call | lambda | name | paren | literal => exact absurd (Nat.le_refl 10) hlevel'
    | binary op left right => exact absurd (level_binary_lt op left right) (by omega)

/-- An operand with types behind is read back up to a token that is neither a type nor an operator
of its level. -/
theorem cast_complete {e : Expr} (hs : s.Closed) (hwf : e.WellFormed) (hnesting : e.nesting ≤ n)
    (hlevel : 8 ≤ e.level) (h : Passes e.slots s s') (hend : EndsOperand 8 s'.current.token) :
    cast inner s = .ok e s' := by
  unfold cast
  -- A tree that is no cast is followed by no arrow, which would make it one.
  by_cases hlevel' : 9 ≤ e.level
  · have hunary := unary_complete hinner hs hwf hnesting hlevel' h hend.no_arguments
    rw [bind_of_ok hunary, current_bind, if_neg hend.no_cast]
    rfl
  · -- Of level eight there are only casts.
    cases e with
    | cast operand target =>
      rw [Expr.slots] at h
      rw [Expr.WellFormed] at hwf
      rw [Expr.nesting] at hnesting
      obtain ⟨s₁, hoperand, h⟩ := Passes.append_iff.mp h
      obtain ⟨s₂, harrow, h⟩ := Passes.token_iff.mp h
      have htarget := Passes.single_iff.mp h
      have ht := harrow.current_eq
      have hunary := unary_complete hinner hs hwf.2 hnesting hwf.1 hoperand (by simp [ht])
      rw [bind_of_ok hunary, current_bind, if_pos ht, advance_bind_of_reads harrow, current_bind,
        htarget.current_eq]
      exact advance_bind_of_reads htarget _
    | assign => exact absurd hlevel (by simp [Expr.level])
    | unary => exact absurd (Nat.le_refl 9) hlevel'
    | call | lambda | name | paren | literal => exact absurd (Nat.le_succ 9) hlevel'
    | binary op left right => exact absurd (level_binary_lt op left right) (by omega)

omit hinner in
/-- The operands of one level are read along the spine of a tree that leans to the left. Behind them
the parser is in the middle of its loop, with rounds left for what may still follow. -/
theorem ladder_spine {k : Nat} (hk : 1 ≤ k) (hk' : k ≤ 7) {operand : Parse Expr}
    {tighter : List Nat}
    (hoperand : ∀ (e : Expr) (s s' : State), s.Closed → e.WellFormed → e.nesting ≤ n →
      k + 1 ≤ e.level → Passes e.slots s s' → EndsOperand (k + 1) s'.current.token →
      ladder operand tighter s = .ok e s') :
    ∀ (e : Expr) (s s' : State), s.Closed → e.WellFormed → e.nesting ≤ n → k ≤ e.level →
      Passes e.slots s s' → EndsOperand (k + 1) s'.current.token →
      ∃ rs, rs ≠ [] ∧ s'.size ≤ rs.length ∧ ladder operand (k :: tighter) s =
        chain k (ladder operand tighter) rs e s' := by
  intro e s s' hs hwf hnesting hlevel h hend
  by_cases hlevel' : k + 1 ≤ e.level
  · -- A tighter operand stands by itself, and all rounds are left.
    refine ⟨_, List.cons_ne_nil _ _, size_le_length_rounds s', ?_⟩
    rw [ladder, bind_of_ok (hoperand e s s' hs hwf hnesting hlevel' h hend)]
    rfl
  · match e with
    | .binary op left right =>
      rw [Expr.slots] at h
      rw [Expr.WellFormed] at hwf
      rw [Expr.nesting] at hnesting
      rw [Expr.level] at hlevel hlevel'
      obtain ⟨s₁, hleft, h⟩ := Passes.append_iff.mp h
      obtain ⟨s₂, hop, hright⟩ := Passes.token_iff.mp h
      have ht := hop.current_eq
      have hopk : op.level = k := by omega
      have hs₁ := hleft.closed hs
      have hs₂ := hop.closed hs₁
      -- The operator behind the left operand is of level `k`, so it ends tighter operands.
      have hend₁ : EndsOperand (k + 1) s₁.current.token := by
        rw [ht, ← hopk]
        exact endsOperand_symbol op
      obtain ⟨rs, hne, hsize, hspine⟩ :=
        ladder_spine hk hk' hoperand left s s₁ hs hwf.2.2.1 (by omega) (by omega) hleft hend₁
      -- A round has been left for the operator, since a token can still be read.
      obtain ⟨r, rs, rfl⟩ := List.exists_cons_of_ne_nil hne
      have hsize₂ := hop.size_lt hs₁ (by simp)
      have hsize₃ := hright.size_lt hs₂ right.tokens_slots_ne_nil
      rw [List.length_cons] at hsize
      refine ⟨rs, ?_, by omega, ?_⟩
      · intro hnil
        rw [hnil, List.length_nil] at hsize
        omega
      · have hparsed :=
          hoperand right s₂ s' hs₂ hwf.2.2.2 (by omega) (by omega) hright hend
        rw [hspine, chain, current_bind, ht, binaryOp?_symbol, if_pos hopk]
        refine (advance_bind_of_reads hop _).trans ?_
        rw [bind_of_ok hparsed]
    -- An assignment is of no level of operators.
    | .assign _ _ =>
      rw [Expr.level] at hlevel
      omega
    | .cast _ _ | .unary _ _ | .call _ _ _ | .lambda _ _ | .name _ | .paren _ | .literal _ =>
      rw [Expr.level] at hlevel'
      omega

/-- A ladder of the levels from `k` on reads operands of level `k` and tighter. -/
theorem ladder_complete (m : Nat) : ∀ k, k + m = 8 → 1 ≤ k → ∀ (e : Expr) (s s' : State),
    s.Closed → e.WellFormed → e.nesting ≤ n → k ≤ e.level → Passes e.slots s s' →
    EndsOperand k s'.current.token → ladder (cast inner) (List.range' k m) s = .ok e s' := by
  induction m with
  | zero =>
    intro k hk _ e s s' hs hwf hnesting hlevel h hend
    obtain rfl : k = 8 := hk
    exact cast_complete hinner hs hwf hnesting hlevel h hend
  | succ m ih =>
    intro k hk hk' e s s' hs hwf hnesting hlevel h hend
    -- The row has been read up to the token behind it, which is no operator of the level.
    obtain ⟨rs, hne, -, hspine⟩ := ladder_spine hk' (by omega) (ih (k + 1) (by omega) (by omega))
      e s s' hs hwf hnesting hlevel h (hend.mono (Nat.le_succ k))
    obtain ⟨r, rs, rfl⟩ := List.exists_cons_of_ne_nil hne
    rw [List.range'_succ, hspine, chain, current_bind, hend.no_operator k (Nat.le_refl k)]
    rfl

/-- An expression is read back up to a token that ends expressions. -/
theorem expressionBody_complete {e : Expr} (hs : s.Closed) (hwf : e.WellFormed)
    (hnesting : e.nesting ≤ n) (h : Passes e.slots s s')
    (hend : EndsExpression s'.current.token) : expressionBody inner s = .ok e s' := by
  unfold expressionBody
  rw [current_bind]
  -- Only assignments have level zero. Everything else does not start with a dollar sign, and no
  -- assignment sign follows it.
  by_cases hlevel : 1 ≤ e.level
  · have hladder := ladder_complete hinner 7 1 rfl (by omega) e s s' hs hwf hnesting hlevel h hend.1
    rw [if_neg ((first_token e hwf h).2.1 hlevel)]
    refine (bind_of_ok hladder).trans ?_
    rw [current_bind, if_neg hend.2]
    rfl
  · -- Of level zero there are only assignments.
    cases e with
    | assign target value =>
      rw [Expr.slots] at h
      rw [Expr.WellFormed] at hwf
      rw [Expr.nesting] at hnesting
      -- What follows the target is read in the same way, whether or not a dollar sign is there.
      have hvalue : ∀ s₀, s₀.Closed → Passes value.slots s₀ s' →
          assignment inner target s₀ = .ok (.assign target value) s' := by
        intro s₀ hs₀ hpasses
        unfold assignment
        rw [bind_of_ok (hinner.expression value s₀ s' hs₀ hwf (by omega) hpasses hend)]
        rfl
      rcases Passes.dollar_iff.mp h with h | ⟨s₁, hdollar, h⟩
      · obtain ⟨s₁, htarget, h⟩ := Passes.token_iff.mp h
        obtain ⟨s₂, hassign, h⟩ := Passes.token_iff.mp h
        have ht := hassign.current_eq
        have hs₁ := htarget.closed hs
        have hname : Passes (Expr.name target).slots s s₁ := by
          rw [Expr.slots]
          exact Passes.single_iff.mpr htarget
        -- Without a dollar sign, the target is first read as an expression, which the assignment
        -- sign ends.
        have hladder := ladder_complete hinner 7 1 rfl (by omega) (.name target) s s₁ hs
          (by rw [Expr.WellFormed]; trivial) (by rw [Expr.nesting]; omega)
          (by rw [Expr.level]; omega) hname
          (by rw [ht]; exact endsOperand_of_ofSymbol? rfl (by simp) (by simp) 1)
        rw [if_neg (by simp [htarget.current_eq])]
        refine (bind_of_ok hladder).trans ?_
        rw [current_bind, if_pos ht]
        refine (advance_bind_of_reads hassign _).trans ?_
        exact hvalue s₂ (hassign.closed hs₁) h
      · -- A dollar sign is there, and the target behind it is read as a name.
        obtain ⟨s₂, htarget, h⟩ := Passes.token_iff.mp h
        obtain ⟨s₃, hassign, h⟩ := Passes.token_iff.mp h
        have hs₃ := hassign.closed (htarget.closed (hdollar.closed hs))
        have hexpect := expect_of_reads hassign
        rw [if_pos hdollar.current_eq, advance_bind_of_reads hdollar,
          bind_of_ok (identifier_eq_ok_iff.mpr htarget), bind_of_ok hexpect]
        exact hvalue s₃ hs₃ h
    | binary op left right => exact absurd (binaryOp_one_le_level op) hlevel
    | cast | unary | call | lambda | name | paren | literal =>
      exact absurd (by rw [Expr.level]; omega) hlevel

end Expressions

/-! ## Statements -/

/-- Statements do not start with the alternative of a conditional. -/
theorem ne_else_of_startsStatement {t : Token} (h : startsStatement t = true) :
    t ≠ .keyword .elseKey := by
  rintro rfl
  exact absurd h (by decide)

/-- An alternative belongs to the conditional in front of it, so none is left behind a statement. -/
theorem listSlots_first_token {ss : List Stmt} (hwf : Stmt.AllWellFormed ss)
    (h : Passes (Stmt.listSlots ss) s s') (hend : s'.current.token ≠ .keyword .elseKey) :
    s.current.token ≠ .keyword .elseKey := by
  cases ss with
  | nil =>
    rw [Stmt.listSlots] at h
    rwa [Passes.nil_iff.mp h]
  | cons st ss =>
    rw [Stmt.listSlots] at h
    rw [Stmt.AllWellFormed] at hwf
    obtain ⟨s₁, hst, -⟩ := Passes.append_iff.mp h
    exact ne_else_of_startsStatement (statement_first_token hwf.1 hst)

/-- A token with which an expression can start makes the statement an expression. -/
theorem statement_of_startsExpression (inner : Nested)
    (h : startsExpression s.current.token = true) :
    statement inner s = (do
      let e ← inner.expression
      expect (.symbol .semicolon)
      return Stmt.expression e : Parse Stmt) s := by
  unfold statement
  rw [current_bind]
  cases ht : s.current.token with
  | endOfFile => simp [ht, startsExpression] at h
  | keyword k => cases k <;> first | rfl | simp [ht, startsExpression] at h
  | symbol sym => cases sym <;> first | rfl | simp [ht, startsExpression] at h
  | identifier | str | int | float => rfl

/-- A token with which a statement can start does not end a block. -/
theorem blockStatements_of_startsStatement (inner : Nested) (r : Lexed) (rs : List Lexed)
    (h : startsStatement s.current.token = true) :
    blockStatements inner (r :: rs) s = (do
      let st ← statement inner
      return st :: (← blockStatements inner rs) : Parse (List Stmt)) s := by
  rw [blockStatements, current_bind]
  cases ht : s.current.token with
  | endOfFile => simp [ht, startsStatement, startsExpression] at h
  | symbol sym => cases sym <;> first | rfl | simp [ht, startsStatement, startsExpression] at h
  | keyword | identifier | str | int | float => rfl

section Statements

variable {inner : Nested} {n : Nat} (hinner : inner.Complete n)
include hinner

/-- A condition is read back with the parentheses around it. -/
theorem condition_complete (k : Keyword) {e : Expr} {slots : List Slot} (hs : s.Closed)
    (hwf : e.WellFormed) (hnesting : e.nesting < n)
    (h : Passes (.symbol .leftParen :: (e.slots ++ .symbol .rightParen :: slots)) s s') :
    ∃ s₁, s₁.Closed ∧ condition inner k s = .ok e s₁ ∧ Passes slots s₁ s' := by
  -- The condition starts with a token of an expression, and the parenthesis ends it.
  obtain ⟨s₁, hopen, h⟩ := Passes.token_iff.mp h
  obtain ⟨s₂, he, h⟩ := Passes.append_iff.mp h
  obtain ⟨s₃, hclose, h⟩ := Passes.token_iff.mp h
  have hs₁ := hopen.closed hs
  refine ⟨s₃, hclose.closed (he.closed hs₁), ?_, h⟩
  have hinside := hinner.expression e s₁ s₂ hs₁ hwf hnesting he
    (by rw [hclose.current_eq]; exact endsExpression_rightParen)
  unfold condition
  rw [bind_of_ok (expect_of_reads hopen), current_bind, if_pos (first_token e hwf he).1,
    bind_of_ok hinside]
  exact bind_of_ok (expect_of_reads hclose)

/-- The value that a semicolon follows is read up to the semicolon. -/
theorem value_complete {e : Expr} (hs : s.Closed) (hwf : e.WellFormed) (hnesting : e.nesting < n)
    (h : Passes (e.slots ++ [.symbol .semicolon]) s s') :
    ∃ s₁, inner.expression s = .ok e s₁ ∧ expect (.symbol .semicolon) s₁ = .ok () s' := by
  obtain ⟨s₁, he, h⟩ := Passes.append_iff.mp h
  have hend := Passes.single_iff.mp h
  refine ⟨s₁, ?_, expect_of_reads hend⟩
  exact hinner.expression e s s₁ hs hwf hnesting he
    (by rw [hend.current_eq]; exact endsExpression_semicolon)

/-- A statement is read back, unless it might go on with an alternative. -/
theorem statement_complete {st : Stmt} (hs : s.Closed) (hwf : st.WellFormed)
    (hnesting : st.nesting ≤ n) (h : Passes st.slots s s')
    (hend : s'.current.token ≠ .keyword .elseKey) : statement inner s = .ok st s' := by
  cases st with
  | function name ps body =>
    -- The name, the parameters and the body are read in this order.
    rw [Stmt.slots] at h
    rw [Stmt.WellFormed] at hwf
    rw [Stmt.nesting] at hnesting
    obtain ⟨s₁, hfn, h⟩ := Passes.token_iff.mp h
    obtain ⟨s₂, hname, h⟩ := Passes.token_iff.mp h
    obtain ⟨s₃, hps, hbody⟩ := Passes.append_iff.mp h
    have hs₂ := hname.closed (hfn.closed hs)
    have hblock := hinner.block body s₃ s' (hps.closed hs₂) hwf.2 (by omega) hbody
    unfold statement
    rw [current_bind, hfn.current_eq]
    refine (advance_bind_of_reads hfn _).trans ?_
    rw [bind_of_ok (identifier_eq_ok_iff.mpr hname), bind_of_ok (parameters_complete hs₂ hwf.1 hps),
      bind_of_ok hblock]
    rfl
  | declare name mutable value =>
    rw [Stmt.slots] at h
    rw [Stmt.WellFormed] at hwf
    rw [Stmt.nesting] at hnesting
    obtain ⟨s₁, hlet, h⟩ := Passes.token_iff.mp h
    obtain ⟨s₂, hmut, h⟩ := Passes.append_iff.mp h
    obtain ⟨s₃, hname, h⟩ := Passes.token_iff.mp h
    obtain ⟨s₄, hassign, h⟩ := Passes.token_iff.mp h
    have hs₄ := hassign.closed (hname.closed (hmut.closed (hlet.closed hs)))
    -- The mark is read up to the name, and the value up to the semicolon.
    have hmark := mutability_complete hmut hname.current_eq
    have hexpect := expect_of_reads hassign
    obtain ⟨s₅, hvalue, hsemicolon⟩ := value_complete hinner hs₄ hwf (by omega) h
    unfold statement
    rw [current_bind, hlet.current_eq]
    refine (advance_bind_of_reads hlet _).trans ?_
    rw [bind_of_ok hmark, bind_of_ok (identifier_eq_ok_iff.mpr hname), bind_of_ok hexpect,
      bind_of_ok hvalue, bind_of_ok hsemicolon]
    rfl
  | loop test body =>
    rw [Stmt.slots] at h
    rw [Stmt.WellFormed] at hwf
    rw [Stmt.nesting] at hnesting
    obtain ⟨s₁, hwhile, h⟩ := Passes.token_iff.mp h
    -- The condition is read up to its parenthesis, and the block from there.
    obtain ⟨s₂, hs₂, htest, hbody⟩ :=
      condition_complete hinner .whileKey (hwhile.closed hs) hwf.1 (by omega) h
    have hblock := hinner.block body s₂ s' hs₂ hwf.2 (by omega) hbody
    unfold statement
    rw [current_bind, hwhile.current_eq]
    refine (advance_bind_of_reads hwhile _).trans ?_
    rw [bind_of_ok htest, bind_of_ok hblock]
    rfl
  | conditional c =>
    rw [Stmt.slots] at h
    rw [Stmt.WellFormed] at hwf
    rw [Stmt.nesting] at hnesting
    -- A conditional starts with its keyword.
    have hif : s.current.token = .keyword .ifKey := by
      cases c
      rw [Conditional.slots] at h
      exact current_eq_of_passes h
    unfold statement
    rw [current_bind, hif]
    refine (bind_of_ok (hinner.conditional c s s' hs hwf (by omega) h hend)).trans ?_
    rfl
  | leave value =>
    cases value with
    -- A semicolon stands right behind the keyword.
    | none =>
      rw [Stmt.slots] at h
      obtain ⟨s₁, hreturn, h⟩ := Passes.token_iff.mp h
      have hsemicolon := Passes.single_iff.mp h
      have hexpect := expect_of_reads hsemicolon
      unfold statement
      rw [current_bind, hreturn.current_eq]
      refine (advance_bind_of_reads hreturn _).trans ?_
      rw [current_bind]
      simp only
      rw [if_pos hsemicolon.current_eq, bind_of_ok (pure_eq_ok_iff.mpr ⟨rfl, rfl⟩),
        bind_of_ok hexpect]
      rfl
    | some e =>
      rw [Stmt.slots] at h
      rw [Stmt.WellFormed] at hwf
      rw [Stmt.nesting] at hnesting
      obtain ⟨s₁, hreturn, h⟩ := Passes.token_iff.mp h
      obtain ⟨s₂, hvalue, hsemicolon⟩ :=
        value_complete hinner (hreturn.closed hs) hwf (by omega) h
      -- A value is there, so no semicolon stands right behind the keyword.
      have hne : s₁.current.token ≠ .symbol .semicolon := by
        obtain ⟨s₃, he, -⟩ := Passes.append_iff.mp h
        have hstarts := (first_token e hwf he).1
        intro ht
        rw [ht] at hstarts
        exact absurd hstarts (by decide)
      unfold statement
      rw [current_bind, hreturn.current_eq]
      refine (advance_bind_of_reads hreturn _).trans ?_
      rw [current_bind]
      simp only
      rw [if_neg hne, bind_of_ok (map_eq_ok_iff.mpr ⟨e, hvalue, rfl⟩), bind_of_ok hsemicolon]
      rfl
  | expression e =>
    -- An expression starts with a token with which no other statement starts.
    rw [Stmt.slots] at h
    rw [Stmt.WellFormed] at hwf
    rw [Stmt.nesting] at hnesting
    obtain ⟨s₁, he, -⟩ := Passes.append_iff.mp h
    obtain ⟨s₂, hvalue, hsemicolon⟩ := value_complete hinner hs hwf (by omega) h
    rw [statement_of_startsExpression inner (first_token e hwf he).1, bind_of_ok hvalue,
      bind_of_ok hsemicolon]
    rfl
  | empty =>
    rw [Stmt.slots] at h
    have hsemicolon := Passes.single_iff.mp h
    unfold statement
    rw [current_bind, hsemicolon.current_eq]
    exact advance_bind_of_reads hsemicolon _

/-- The statements of a block are read back up to the brace that closes it. -/
theorem blockStatements_complete (rs : List Lexed) : ∀ (ss : List Stmt) (s s' : State), s.Closed →
    s.size ≤ rs.length → Stmt.AllWellFormed ss → Stmt.listNesting ss ≤ n →
    Passes (Stmt.listSlots ss ++ [.symbol .rightCurly]) s s' →
    blockStatements inner rs s = .ok ss s' := by
  induction rs with
  | nil =>
    intro ss s s' hs hsize _ _ h
    -- The brace at the end could still be read, and there would be a round for it.
    have hlen := h.length_add_size_le hs
    rw [Slot.tokens_append, List.length_append] at hlen
    simp only [Slot.tokens_token, Slot.tokens_nil, List.length_singleton] at hlen
    rw [List.length_nil] at hsize
    omega
  | cons r rs ih =>
    intro ss s s' hs hsize hwf hnesting h
    cases ss with
    | nil =>
      rw [Stmt.listSlots, List.nil_append] at h
      have hclose := Passes.single_iff.mp h
      rw [blockStatements, current_bind, hclose.current_eq]
      exact advance_bind_of_reads hclose _
    | cons st ss =>
      rw [Stmt.listSlots, List.append_assoc] at h
      rw [Stmt.AllWellFormed] at hwf
      rw [Stmt.listNesting] at hnesting
      obtain ⟨s₁, hst, h⟩ := Passes.append_iff.mp h
      obtain ⟨s₂, hss, hclose⟩ := Passes.append_iff.mp h
      -- A statement may end with a conditional, which would take an alternative behind it for its
      -- own.
      have hne : s₁.current.token ≠ .keyword .elseKey :=
        listSlots_first_token hwf.2 hss (by simp [current_eq_of_passes hclose])
      have hsize₁ := hst.size_lt hs st.tokens_slots_ne_nil
      rw [List.length_cons] at hsize
      have hstatement := statement_complete hinner hs hwf.1 (by omega) hst hne
      have hothers := ih ss s₁ s' (hst.closed hs) (by omega) hwf.2 (by omega) h
      rw [blockStatements_of_startsStatement inner r rs (statement_first_token hwf.1 hst),
        bind_of_ok hstatement, bind_of_ok hothers]
      rfl

/-- A block is read back with the braces around it. -/
theorem blockBody_complete {ss : List Stmt} (hs : s.Closed) (hwf : Stmt.AllWellFormed ss)
    (hnesting : Stmt.listNesting ss ≤ n) (h : Passes (Stmt.blockSlots ss) s s') :
    blockBody inner s = .ok ss s' := by
  unfold Stmt.blockSlots at h
  obtain ⟨s₁, hopen, h⟩ := Passes.token_iff.mp h
  unfold blockBody
  rw [bind_of_ok (expect_of_reads hopen), rounds_bind]
  exact blockStatements_complete hinner _ ss s₁ s' (hopen.closed hs) (size_le_length_rounds s₁) hwf
    hnesting h

/-- What follows a conditional is read back, be it nothing, a block or another conditional. -/
theorem alternative_complete {a : Alternative} (hs : s.Closed) (hwf : a.WellFormed)
    (hnesting : a.nesting ≤ n) (h : Passes a.slots s s')
    (hend : s'.current.token ≠ .keyword .elseKey) : alternative inner s = .ok a s' := by
  unfold alternative
  rw [current_bind]
  cases a with
  | nothing =>
    -- Nothing is read, since no `else` follows.
    rw [Alternative.slots] at h
    obtain rfl := Passes.nil_iff.mp h
    rw [if_neg hend]
    rfl
  | block body =>
    rw [Alternative.slots] at h
    rw [Alternative.WellFormed] at hwf
    rw [Alternative.nesting] at hnesting
    -- The block starts with a brace, which tells it from a further conditional.
    obtain ⟨s₁, helse, h⟩ := Passes.token_iff.mp h
    have hblock := hinner.block body s₁ s' (helse.closed hs) hwf (by omega) h
    rw [if_pos helse.current_eq, advance_bind_of_reads helse, current_bind,
      current_eq_of_passes h]
    exact (bind_of_ok hblock).trans rfl
  | chain c =>
    rw [Alternative.slots] at h
    rw [Alternative.WellFormed] at hwf
    rw [Alternative.nesting] at hnesting
    obtain ⟨s₁, helse, h⟩ := Passes.token_iff.mp h
    have hconditional := hinner.conditional c s₁ s' (helse.closed hs) hwf (by omega) h hend
    -- A conditional starts with its keyword, which tells it from a block.
    have hif : s₁.current.token = .keyword .ifKey := by
      cases c
      rw [Conditional.slots] at h
      exact current_eq_of_passes h
    rw [if_pos helse.current_eq, advance_bind_of_reads helse, current_bind, hif]
    exact (bind_of_ok hconditional).trans rfl

/-- A conditional is read back with all that follows. -/
theorem conditionalBody_complete {c : Conditional} (hs : s.Closed) (hwf : c.WellFormed)
    (hnesting : c.nesting ≤ n) (h : Passes c.slots s s')
    (hend : s'.current.token ≠ .keyword .elseKey) : conditionalBody inner s = .ok c s' := by
  obtain ⟨test, body, otherwise⟩ := c
  rw [Conditional.slots] at h
  rw [Conditional.WellFormed] at hwf
  rw [Conditional.nesting] at hnesting
  obtain ⟨s₁, hif, h⟩ := Passes.token_iff.mp h
  obtain ⟨s₂, hs₂, htest, h⟩ :=
    condition_complete hinner .ifKey (hif.closed hs) hwf.1 (by omega) h
  -- Behind the condition, the slots are those of the body and then those of the alternative.
  have hsplit : Passes (Stmt.blockSlots body ++ otherwise.slots) s₂ s' := by
    simpa only [Stmt.blockSlots, List.cons_append, List.append_assoc, List.nil_append] using h
  obtain ⟨s₃, hbody, hotherwise⟩ := Passes.append_iff.mp hsplit
  have hblock := hinner.block body s₂ s₃ hs₂ hwf.2.1 (by omega) hbody
  have halternative :=
    alternative_complete hinner (hbody.closed hs₂) hwf.2.2 (by omega) hotherwise hend
  unfold conditionalBody
  rw [advance_bind_of_reads hif, bind_of_ok htest, bind_of_ok hblock, bind_of_ok halternative]
  rfl

end Statements

/-! ## Levels and programs -/

/-- The parsers that may open `n` levels read the trees that need no more. -/
theorem levels_complete (max n : Nat) :
    Nested.Complete ⟨expression max n, block max n, conditional max n⟩ n := by
  induction n with
  | zero =>
    refine ⟨fun e s s' _ _ h => ?_, fun ss s s' _ _ h => ?_, fun c s s' _ _ h => ?_⟩
    · exact absurd h (Nat.not_lt_zero _)
    · exact absurd h (Nat.not_lt_zero _)
    · exact absurd h (Nat.not_lt_zero _)
  | succ n ih =>
    exact ⟨fun e s s' hs hwf h => expressionBody_complete ih hs hwf (Nat.le_of_lt_succ h),
      fun ss s s' hs hwf h => blockBody_complete ih hs hwf (Nat.le_of_lt_succ h),
      fun c s s' hs hwf h => conditionalBody_complete ih hs hwf (Nat.le_of_lt_succ h)⟩

/-- The parsers at the outermost level read back everything that keeps the limit. -/
theorem nested_complete (max : Nat) : (nested max).Complete max := levels_complete max max

/-- Statements up to the end of the file are a program. -/
theorem topStatements_complete {inner : Nested} {n : Nat} (hinner : inner.Complete n)
    (rs : List Lexed) : ∀ (ss : List Stmt) (s s' : State), s.Closed → s.size ≤ rs.length →
    Stmt.AllWellFormed ss → Stmt.listNesting ss ≤ n → Passes (Stmt.listSlots ss) s s' →
    s'.current.token = .endOfFile → topStatements inner rs s = .ok ss s' := by
  induction rs with
  | nil =>
    intro ss s s' hs hsize _ _ h _
    -- Without a round there is no token left that can be read, so there is no statement either.
    cases ss with
    | nil =>
      rw [Stmt.listSlots] at h
      rw [Passes.nil_iff.mp h]
      rfl
    | cons st ss =>
      have hlen := h.length_add_size_le hs
      have hpos := List.length_pos_iff.mpr st.tokens_slots_ne_nil
      rw [Stmt.listSlots, Slot.tokens_append, List.length_append] at hlen
      rw [List.length_nil] at hsize
      omega
  | cons r rs ih =>
    intro ss s s' hs hsize hwf hnesting h hend
    rw [topStatements, current_bind]
    cases ss with
    | nil =>
      rw [Stmt.listSlots] at h
      obtain rfl := Passes.nil_iff.mp h
      rw [if_pos hend]
      rfl
    | cons st ss =>
      rw [Stmt.listSlots] at h
      rw [Stmt.AllWellFormed] at hwf
      rw [Stmt.listNesting] at hnesting
      obtain ⟨s₁, hst, hss⟩ := Passes.append_iff.mp h
      -- The statement behind starts with no `else`, so the first one cannot go on with it.
      have hne : s₁.current.token ≠ .keyword .elseKey :=
        listSlots_first_token hwf.2 hss (by simp [hend])
      -- A statement starts with a token, so the source does not end here.
      have hmore : s.current.token ≠ .endOfFile := by
        have hstarts := statement_first_token hwf.1 hst
        intro ht
        rw [ht] at hstarts
        exact absurd hstarts (by decide)
      have hsize₁ := hst.size_lt hs st.tokens_slots_ne_nil
      rw [List.length_cons] at hsize
      have hstatement := statement_complete hinner hs hwf.1 (by omega) hst hne
      have hothers := ih ss s₁ s' (hst.closed hs) (by omega) hwf.2 (by omega) hss hend
      rw [if_neg hmore, bind_of_ok hstatement, bind_of_ok hothers]
      rfl

/-- A well-formed program within the limit on nesting is read from any of its writings. -/
theorem program_complete {max : Nat} {p : Program} (hs : s.Closed)
    (hwf : Stmt.AllWellFormed p.statements) (hnesting : p.nesting ≤ max)
    (h : Passes p.slots s s') (hend : s'.current.token = .endOfFile) :
    program max s = .ok p s' := by
  have hstatements := topStatements_complete (nested_complete max) _ p.statements s s' hs
    (size_le_length_rounds s) hwf hnesting h hend
  unfold program
  rw [rounds_bind, bind_of_ok hstatements]
  rfl

end Brisk.Parse
