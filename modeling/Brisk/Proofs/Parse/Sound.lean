import Brisk.Proofs.Parse.Reads

/-!
# What is parsed is what was written

A parser that succeeds has passed the slots of its result, and the result is well-formed
(`program_sound`). So no token is lost, invented or reordered.

The proof follows the grammar. Each parser is sound provided that the parsers one level further in
are (`Nested.Sound`), and those are by induction on the levels that may still be opened
(`nested_sound`). The loops need that their rounds do not run out before their tokens do, which
`Passes.length_add_size_le` gives.
-/

namespace Brisk.Parse

variable {α : Type} {s s' s'' : State}

/-- Whenever a parser succeeds, it has passed the slots of its result, and the result has a
property. -/
def Sound (p : Parse α) (slots : α → List Slot) (P : α → Prop) : Prop :=
  ∀ s a s', s.Closed → p s = .ok a s' → Passes (slots a) s s' ∧ P a

/-- Whether the parsers that open a level are sound. -/
structure Nested.Sound (inner : Nested) : Prop where
  expression : Parse.Sound inner.expression Expr.slots Expr.WellFormed
  block : Parse.Sound inner.block Stmt.blockSlots Stmt.AllWellFormed
  /-- A conditional is only parsed when its first token is known to be there. -/
  conditional : ∀ s c s', s.Closed → s.current.token = .keyword .ifKey →
    inner.conditional s = .ok c s' → Passes c.slots s s' ∧ c.WellFormed

/-! ## Parameters -/

/-- A mark that may be missing, and the name behind it, are a parameter. -/
theorem passes_parameter {name : String} {mutable : Bool} (hm : mutability s = .ok mutable s')
    (hn : Reads s' [.identifier name] s'') : Passes (Parameter.slots ⟨name, mutable⟩) s s'' := by
  unfold Parameter.slots
  rcases mutability_eq_ok_iff.mp hm with ⟨rfl, hread⟩ | ⟨rfl, -, rfl⟩
  · exact Passes.append_iff.mpr
      ⟨s', Passes.single_iff.mpr hread, Passes.single_iff.mpr hn⟩
  · exact Passes.single_iff.mpr hn

/-- Whether parameters can be declared when the names `seen` are taken. -/
structure Declarable (seen : List String) (ps : List Parameter) : Prop where
  nonempty : ps ≠ []
  distinct : Parameter.Distinct ps
  fresh : ∀ p ∈ ps, p.name ∉ seen

namespace Declarable

variable {seen : List String} {p : Parameter} {ps : List Parameter}

/-- One parameter can be declared if its name has not been seen. -/
theorem singleton (h : p.name ∉ seen) : Declarable seen [p] :=
  ⟨by simp, by simp [Parameter.Distinct], by simpa using h⟩

/-- Behind a parameter its own name is taken too. -/
theorem cons (h : p.name ∉ seen) (hps : Declarable (p.name :: seen) ps) :
    Declarable seen (p :: ps) := by
  refine ⟨by simp, ?_, ?_⟩
  · have hdistinct := hps.distinct
    unfold Parameter.Distinct at hdistinct ⊢
    rw [List.map_cons, List.nodup_cons]
    refine ⟨?_, hdistinct⟩
    intro hmem
    obtain ⟨q, hq, hname⟩ := List.mem_map.mp hmem
    exact hps.fresh q hq (by simp [hname])
  · intro q hq
    rcases List.mem_cons.mp hq with rfl | hq
    · exact h
    · exact fun hmem => hps.fresh q hq (List.mem_cons_of_mem _ hmem)

end Declarable

/-- Parameters that are parsed are those that were written, at least one, and can be declared. -/
theorem parameterList_sound (rs : List Lexed) : ∀ (seen : List String) (s s' : State)
    (ps : List Parameter), s.Closed → s.size ≤ rs.length → rs ≠ [] →
    parameterList seen rs s = .ok ps s' →
      Passes (Parameter.listSlots ps) s s' ∧ Declarable seen ps := by
  induction rs with
  | nil =>
    intro seen s s' ps _ _ hrs
    exact absurd rfl hrs
  | cons r rs ih =>
    intro seen s s' ps hs hsize _ h
    unfold parameterList at h
    -- The parameter itself: its mark if there is one, and its name, which has not been seen.
    obtain ⟨mutable, s₁, hm, h⟩ := bind_eq_ok_iff.mp h
    rw [position_bind, current_bind] at h
    cases ht : s₁.current.token with
    | identifier name =>
      rw [ht] at h
      obtain ⟨s₂, hread, h⟩ := (advance_bind_eq_ok_iff ht (by simp)).mp h
      have hp : Passes (Parameter.slots ⟨name, mutable⟩) s s₂ := passes_parameter hm hread
      split at h
      · exact absurd h (throw_ne_ok _)
      next hseen =>
      rw [current_bind] at h
      split at h
      · -- A comma: further parameters follow, and there is a round for them.
        next hcomma =>
        obtain ⟨s₃, hread, h⟩ := (advance_bind_eq_ok_iff hcomma (by simp)).mp h
        obtain ⟨ps', s₄, hlist, h⟩ := bind_eq_ok_iff.mp h
        obtain ⟨rfl, rfl⟩ := pure_eq_ok_iff.mp h
        obtain ⟨hrs, hsize₃⟩ := hp.rounds_left hread hs (Parameter.tokens_slots_ne_nil _) hsize
        obtain ⟨hpasses, hps⟩ :=
          ih (name :: seen) s₃ s₄ ps' (hread.closed (hp.closed hs)) hsize₃ hrs hlist
        refine ⟨?_, hps.cons hseen⟩
        rw [Parameter.listSlots_cons _ hps.nonempty]
        exact Passes.append_iff.mpr ⟨s₂, hp, Passes.token_iff.mpr ⟨s₃, hread, hpasses⟩⟩
      · -- The last parameter.
        obtain ⟨rfl, rfl⟩ := pure_eq_ok_iff.mp h
        exact ⟨hp, .singleton hseen⟩
    | endOfFile | symbol | keyword | str | int | float =>
      rw [ht] at h
      exact absurd h (fail_ne_ok _)

/-- Parameters in parentheses are those that were written, with distinct names. -/
theorem parameters_sound : Sound parameters Parameter.allSlots Parameter.Distinct := by
  intro s ps s' hs h
  unfold parameters at h
  obtain ⟨s₁, hopen, h⟩ := (expect_bind_eq_ok_iff (by simp)).mp h
  have hs₁ := hopen.closed hs
  rw [current_bind] at h
  simp only at h
  unfold Parameter.allSlots
  split at h
  · -- The list is closed at once.
    obtain ⟨ps', s₂, hnone, h⟩ := bind_eq_ok_iff.mp h
    obtain ⟨rfl, rfl⟩ := pure_eq_ok_iff.mp hnone
    obtain ⟨s₃, hclose, h⟩ := (expect_bind_eq_ok_iff (by simp)).mp h
    obtain ⟨rfl, rfl⟩ := pure_eq_ok_iff.mp h
    refine ⟨?_, by simp [Parameter.Distinct]⟩
    exact Passes.token_iff.mpr ⟨s₁, hopen, Passes.single_iff.mpr hclose⟩
  · -- There is a parameter, and rounds for all of them.
    rw [rounds_bind] at h
    obtain ⟨ps', s₂, hlist, h⟩ := bind_eq_ok_iff.mp h
    obtain ⟨s₃, hclose, h⟩ := (expect_bind_eq_ok_iff (by simp)).mp h
    obtain ⟨rfl, rfl⟩ := pure_eq_ok_iff.mp h
    obtain ⟨hpasses, hps'⟩ :=
      parameterList_sound _ [] s₁ s₂ ps' hs₁ (size_le_length_rounds s₁) (by simp) hlist
    refine ⟨?_, hps'.distinct⟩
    exact Passes.token_iff.mpr
      ⟨s₁, hopen, Passes.append_iff.mpr ⟨s₂, hpasses, Passes.single_iff.mpr hclose⟩⟩

/-! ## Expressions -/

/-- A token that is a literal is the token of that literal. -/
theorem literal?_eq_some {t : Token} {l : Literal} (h : literal? t = some l) : t = l.token := by
  unfold literal? at h
  split at h <;> cases h <;> rfl

/-- A symbol that is an operator between operands is the symbol of that operator. -/
theorem ofSymbol?_eq_some {sym : Symbol} {op : BinaryOp} (h : BinaryOp.ofSymbol? sym = some op) :
    sym = op.symbol := by
  cases sym <;> cases h <;> rfl

/-- A token that is an operator of a level is the token of such an operator. -/
theorem binaryOp?_eq_some {level : Nat} {t : Token} {op : BinaryOp}
    (h : binaryOp? level t = some op) : t = .symbol op.symbol ∧ op.level = level := by
  cases t with
  | symbol sym =>
    unfold binaryOp? at h
    obtain ⟨hop, hlevel⟩ := Option.filter_eq_some_iff.mp h
    rw [ofSymbol?_eq_some hop]
    exact ⟨rfl, of_decide_eq_true hlevel⟩
  | endOfFile | keyword | identifier | str | int | float => exact absurd h (by simp [binaryOp?])

/-- A token that is an operator in front of an operand is the token of that operator. -/
theorem unaryOp?_eq_some {t : Token} {op : UnaryOp} (h : unaryOp? t = some op) :
    t = .symbol op.symbol := by
  cases t with
  | symbol sym => cases sym <;> cases h <;> rfl
  | endOfFile | keyword | identifier | str | int | float => exact absurd h (by simp [unaryOp?])

section Expressions

variable {inner : Nested} (hinner : inner.Sound)
include hinner

/-- Arguments that are parsed are those that were written, at least one, and well-formed. -/
theorem argumentList_sound (rs : List Lexed) : ∀ (s s' : State) (es : List Expr), s.Closed →
    s.size ≤ rs.length → rs ≠ [] → argumentList inner rs s = .ok es s' →
    Passes (Expr.listSlots es) s s' ∧ es ≠ [] ∧ Expr.AllWellFormed es := by
  induction rs with
  | nil =>
    intro s s' es _ _ hrs
    exact absurd rfl hrs
  | cons r rs ih =>
    intro s s' es hs hsize _ h
    unfold argumentList at h
    obtain ⟨e, s₁, he, h⟩ := bind_eq_ok_iff.mp h
    obtain ⟨hpasses, hwf⟩ := hinner.expression s e s₁ hs he
    rw [current_bind] at h
    split at h
    · -- A comma: further arguments follow, and there is a round for them.
      next hcomma =>
      obtain ⟨s₂, hread, h⟩ := (advance_bind_eq_ok_iff hcomma (by simp)).mp h
      obtain ⟨es', s₃, hlist, h⟩ := bind_eq_ok_iff.mp h
      obtain ⟨rfl, rfl⟩ := pure_eq_ok_iff.mp h
      obtain ⟨hrs, hsize₂⟩ := hpasses.rounds_left hread hs e.tokens_slots_ne_nil hsize
      obtain ⟨hpasses', hne, hwf'⟩ :=
        ih s₂ s₃ es' (hread.closed (hpasses.closed hs)) hsize₂ hrs hlist
      refine ⟨?_, by simp, by simp only [Expr.AllWellFormed]; exact ⟨hwf, hwf'⟩⟩
      rw [Expr.listSlots_cons _ hne]
      exact Passes.append_iff.mpr ⟨s₁, hpasses, Passes.token_iff.mpr ⟨s₂, hread, hpasses'⟩⟩
    · -- The last argument.
      obtain ⟨rfl, rfl⟩ := pure_eq_ok_iff.mp h
      exact ⟨hpasses, by simp, by simp only [Expr.AllWellFormed]; exact ⟨hwf, trivial⟩⟩

/-- Arguments in parentheses are those that were written. -/
theorem arguments_sound : Sound (arguments inner) Expr.argumentSlots Expr.AllWellFormed := by
  intro s es s' hs h
  unfold arguments at h
  obtain ⟨s₁, hopen, h⟩ := (expect_bind_eq_ok_iff (by simp)).mp h
  have hs₁ := hopen.closed hs
  rw [current_bind] at h
  simp only at h
  unfold Expr.argumentSlots
  split at h
  · -- The list is closed at once.
    obtain ⟨es', s₂, hnone, h⟩ := bind_eq_ok_iff.mp h
    obtain ⟨rfl, rfl⟩ := pure_eq_ok_iff.mp hnone
    obtain ⟨s₃, hclose, h⟩ := (expect_bind_eq_ok_iff (by simp)).mp h
    obtain ⟨rfl, rfl⟩ := pure_eq_ok_iff.mp h
    refine ⟨?_, by simp only [Expr.AllWellFormed]⟩
    rw [Expr.listSlots]
    exact Passes.token_iff.mpr ⟨s₁, hopen, Passes.single_iff.mpr hclose⟩
  · -- There is an argument, and rounds for all of them.
    rw [rounds_bind] at h
    obtain ⟨es', s₂, hlist, h⟩ := bind_eq_ok_iff.mp h
    obtain ⟨s₃, hclose, h⟩ := (expect_bind_eq_ok_iff (by simp)).mp h
    obtain ⟨rfl, rfl⟩ := pure_eq_ok_iff.mp h
    obtain ⟨hpasses, -, hwf⟩ :=
      argumentList_sound hinner _ s₁ s₂ es' hs₁ (size_le_length_rounds s₁) (by simp) hlist
    refine ⟨?_, hwf⟩
    exact Passes.token_iff.mpr
      ⟨s₁, hopen, Passes.append_iff.mpr ⟨s₂, hpasses, Passes.single_iff.mpr hclose⟩⟩

/-- What can be called is called if arguments follow. -/
theorem callSuffix_sound {callee e : Expr} (hs : s.Closed) (hpasses : Passes callee.slots s s')
    (hcallable : callee.Callable) (hwf : callee.WellFormed)
    (h : callSuffix inner callee s' = .ok e s'') :
    Passes e.slots s s'' ∧ e.WellFormed ∧ 10 ≤ e.level := by
  unfold callSuffix at h
  rw [current_bind] at h
  split at h
  · obtain ⟨es, s₁, harguments, h⟩ := bind_eq_ok_iff.mp h
    obtain ⟨rfl, rfl⟩ := pure_eq_ok_iff.mp h
    obtain ⟨hpasses', hwf'⟩ := arguments_sound hinner s' es s₁ (hpasses.closed hs) harguments
    refine ⟨?_, ?_, Nat.le_refl 10⟩
    · rw [Expr.slots]
      exact Passes.append_iff.mpr ⟨s', hpasses, hpasses'⟩
    · rw [Expr.WellFormed]
      exact ⟨fun _ => hcallable, hwf, hwf'⟩
  · obtain ⟨rfl, rfl⟩ := pure_eq_ok_iff.mp h
    exact ⟨hpasses, hwf, Nat.le_of_eq hcallable.level_eq.symm⟩

/-- An operand of the tightest level is the one that was written. -/
theorem primary_sound :
    Sound (primary inner) Expr.slots fun e => e.WellFormed ∧ 10 ≤ e.level := by
  intro s e s' hs h
  unfold primary at h
  rw [current_bind] at h
  cases hl : literal? s.current.token with
  -- A literal is a token of its own, which cannot be called.
  | some l =>
    rw [hl] at h
    have htoken := literal?_eq_some hl
    obtain ⟨s₁, hread, h⟩ :=
      (advance_bind_eq_ok_iff htoken (by cases l <;> simp [Literal.token])).mp h
    obtain ⟨rfl, rfl⟩ := pure_eq_ok_iff.mp h
    refine ⟨?_, ?_, Nat.le_refl 10⟩
    · rw [Expr.slots]
      exact Passes.single_iff.mpr hread
    · rw [Expr.WellFormed]
      trivial
  | none =>
    rw [hl] at h
    simp only at h
    -- What is no literal starts with a name, a parenthesis, a hash or a bracket.
    cases htoken : s.current.token with
    | identifier name =>
      rw [htoken] at h
      obtain ⟨s₁, hread, h⟩ := (advance_bind_eq_ok_iff htoken (by simp)).mp h
      have hpasses : Passes (Expr.name name).slots s s₁ := by
        rw [Expr.slots]
        exact Passes.single_iff.mpr hread
      exact callSuffix_sound hinner hs hpasses trivial (by rw [Expr.WellFormed]; trivial) h
    | symbol sym =>
      rw [htoken] at h
      cases sym with
      -- What stands between parentheses is an expression, which may be called.
      | leftParen =>
        obtain ⟨s₁, hopen, h⟩ := (advance_bind_eq_ok_iff htoken (by simp)).mp h
        obtain ⟨e', s₂, he, h⟩ := bind_eq_ok_iff.mp h
        obtain ⟨s₃, hclose, h⟩ := (expect_bind_eq_ok_iff (by simp)).mp h
        obtain ⟨hpasses', hwf⟩ := hinner.expression s₁ e' s₂ (hopen.closed hs) he
        have hpasses : Passes (Expr.paren e').slots s s₃ := by
          rw [Expr.slots]
          exact Passes.token_iff.mpr
            ⟨s₁, hopen, Passes.append_iff.mpr ⟨s₂, hpasses', Passes.single_iff.mpr hclose⟩⟩
        exact callSuffix_sound hinner hs hpasses trivial (by rw [Expr.WellFormed]; exact hwf) h
      -- Behind a hash stand parameters and a block, which may be called.
      | hash =>
        obtain ⟨s₁, hhash, h⟩ := (advance_bind_eq_ok_iff htoken (by simp)).mp h
        obtain ⟨ps, s₂, hparameters, h⟩ := bind_eq_ok_iff.mp h
        obtain ⟨body, s₃, hblock, h⟩ := bind_eq_ok_iff.mp h
        have hs₁ := hhash.closed hs
        obtain ⟨hps, hdistinct⟩ := parameters_sound s₁ ps s₂ hs₁ hparameters
        obtain ⟨hbody, hwf⟩ := hinner.block s₂ body s₃ (hps.closed hs₁) hblock
        have hpasses : Passes (Expr.lambda ps body).slots s s₃ := by
          rw [Expr.slots]
          exact Passes.token_iff.mpr ⟨s₁, hhash, Passes.append_iff.mpr ⟨s₂, hps, hbody⟩⟩
        refine callSuffix_sound hinner hs hpasses trivial ?_ h
        rw [Expr.WellFormed]
        exact ⟨hdistinct, hwf⟩
      -- Behind a bracket stands what is called, traced, with its arguments.
      | leftBracket =>
        obtain ⟨s₁, hopen, h⟩ := (advance_bind_eq_ok_iff htoken (by simp)).mp h
        obtain ⟨callee, s₂, hcallee, h⟩ := bind_eq_ok_iff.mp h
        obtain ⟨s₃, hclose, h⟩ := (expect_bind_eq_ok_iff (by simp)).mp h
        obtain ⟨es, s₄, harguments, h⟩ := bind_eq_ok_iff.mp h
        obtain ⟨rfl, rfl⟩ := pure_eq_ok_iff.mp h
        have hs₁ := hopen.closed hs
        obtain ⟨hpasses, hwf⟩ := hinner.expression s₁ callee s₂ hs₁ hcallee
        have hs₃ := hclose.closed (hpasses.closed hs₁)
        obtain ⟨hpasses', hwf'⟩ := arguments_sound hinner s₃ es s₄ hs₃ harguments
        refine ⟨?_, ?_, Nat.le_refl 10⟩
        · rw [Expr.slots]
          exact Passes.token_iff.mpr ⟨s₁, hopen, Passes.append_iff.mpr
            ⟨s₂, hpasses, Passes.token_iff.mpr ⟨s₃, hclose, hpasses'⟩⟩⟩
        · rw [Expr.WellFormed]
          exact ⟨fun htraced => absurd htraced (by simp), hwf, hwf'⟩
      | _ => exact absurd h (fail_ne_ok _)
    | endOfFile | keyword | str | int | float =>
      rw [htoken] at h
      exact absurd h (fail_ne_ok _)

/-- An operand with signs in front is the one that was written. -/
theorem unary_sound : Sound (unary inner) Expr.slots fun e => e.WellFormed ∧ 9 ≤ e.level := by
  intro s e s' hs h
  unfold unary at h
  rw [current_bind] at h
  cases hop : unaryOp? s.current.token with
  -- The operand of a sign has no further sign in front.
  | some op =>
    rw [hop] at h
    obtain ⟨s₁, hread, h⟩ := (advance_bind_eq_ok_iff (unaryOp?_eq_some hop) (by simp)).mp h
    obtain ⟨operand, s₂, hoperand, h⟩ := bind_eq_ok_iff.mp h
    obtain ⟨rfl, rfl⟩ := pure_eq_ok_iff.mp h
    obtain ⟨hpasses, hwf, hlevel⟩ :=
      primary_sound hinner s₁ operand s₂ (hread.closed hs) hoperand
    refine ⟨?_, ?_, Nat.le_refl 9⟩
    · rw [Expr.slots]
      exact Passes.token_iff.mpr ⟨s₁, hread, hpasses⟩
    · rw [Expr.WellFormed]
      exact ⟨hlevel, hwf⟩
  | none =>
    rw [hop] at h
    obtain ⟨hpasses, hwf, hlevel⟩ := primary_sound hinner s e s' hs h
    exact ⟨hpasses, hwf, by omega⟩

/-- An operand with types behind is the one that was written. -/
theorem cast_sound : Sound (cast inner) Expr.slots fun e => e.WellFormed ∧ 8 ≤ e.level := by
  intro s e s' hs h
  unfold cast at h
  obtain ⟨operand, s₁, hoperand, h⟩ := bind_eq_ok_iff.mp h
  obtain ⟨hpasses, hwf, hlevel⟩ := unary_sound hinner s operand s₁ hs hoperand
  rw [current_bind] at h
  split at h
  · -- An arrow: the name of a type must follow.
    next harrow =>
    obtain ⟨s₂, hread, h⟩ := (advance_bind_eq_ok_iff harrow (by simp)).mp h
    rw [current_bind] at h
    cases htarget : s₂.current.token with
    | keyword k =>
      rw [htarget] at h
      cases k with
      | type target =>
        obtain ⟨s₃, hread', h⟩ := (advance_bind_eq_ok_iff htarget (by simp)).mp h
        obtain ⟨rfl, rfl⟩ := pure_eq_ok_iff.mp h
        refine ⟨?_, ?_, Nat.le_refl 8⟩
        · rw [Expr.slots]
          exact Passes.append_iff.mpr
            ⟨s₁, hpasses, Passes.token_iff.mpr ⟨s₂, hread, Passes.single_iff.mpr hread'⟩⟩
        · rw [Expr.WellFormed]
          exact ⟨hlevel, hwf⟩
      | _ => exact absurd h (fail_ne_ok _)
    | endOfFile | symbol | identifier | str | int | float =>
      rw [htarget] at h
      exact absurd h (fail_ne_ok _)
  · -- Without an arrow the operand is all there is.
    obtain ⟨rfl, rfl⟩ := pure_eq_ok_iff.mp h
    exact ⟨hpasses, hwf, by omega⟩

omit hinner in
/-- The operators of a level group to the left: what is parsed is `left` with operators of the level
and tighter operands behind it. -/
theorem chain_sound {level : Nat} {operand : Parse Expr}
    (hoperand : Sound operand Expr.slots fun e => e.WellFormed ∧ level + 1 ≤ e.level)
    (rs : List Lexed) : ∀ (left e : Expr) (s₀ s s' : State), s₀.Closed →
    Passes left.slots s₀ s → left.WellFormed → level ≤ left.level →
    chain level operand rs left s = .ok e s' →
    Passes e.slots s₀ s' ∧ e.WellFormed ∧ level ≤ e.level := by
  -- By induction on the rounds. A chain that runs out of rounds would end too early, but what it
  -- yields has been passed all the same.
  induction rs with
  | nil =>
    intro left e s₀ s s' _ hleft hwf hlevel h
    unfold chain at h
    obtain ⟨rfl, rfl⟩ := pure_eq_ok_iff.mp h
    exact ⟨hleft, hwf, hlevel⟩
  | cons r rs ih =>
    -- The induction is on the rounds: what has been consumed is the left operand of the next
    -- operator.
    intro left e s₀ s s' hs₀ hleft hwf hlevel h
    unfold chain at h
    rw [current_bind] at h
    cases hop : binaryOp? level s.current.token with
    | none =>
      rw [hop] at h
      obtain ⟨rfl, rfl⟩ := pure_eq_ok_iff.mp h
      exact ⟨hleft, hwf, hlevel⟩
    | some op =>
      rw [hop] at h
      obtain ⟨htoken, hoplevel⟩ := binaryOp?_eq_some hop
      obtain ⟨s₁, hread, h⟩ := (advance_bind_eq_ok_iff htoken (by simp)).mp h
      obtain ⟨right, s₂, hright, h⟩ := bind_eq_ok_iff.mp h
      have hs₁ := hread.closed (hleft.closed hs₀)
      obtain ⟨hpasses, hwf', hlevel'⟩ := hoperand s₁ right s₂ hs₁ hright
      refine ih (.binary op left right) e s₀ s₂ s' hs₀ ?_ ?_ ?_ h
      · rw [Expr.slots]
        exact Passes.append_iff.mpr ⟨s, hleft, Passes.token_iff.mpr ⟨s₁, hread, hpasses⟩⟩
      · rw [Expr.WellFormed, hoplevel]
        exact ⟨hlevel, hlevel', hwf, hwf'⟩
      · exact Nat.le_of_eq hoplevel.symm

/-- A ladder of the levels from `k` on yields operands of level `k` and tighter. -/
theorem ladder_sound (n : Nat) : ∀ k, k + n = 8 →
    Sound (ladder (cast inner) (List.range' k n)) Expr.slots
      fun e => e.WellFormed ∧ k ≤ e.level := by
  induction n with
  | zero =>
    intro k hk
    obtain rfl : k = 8 := hk
    exact cast_sound hinner
  | succ n ih =>
    intro k hk s e s' hs h
    have htighter := ih (k + 1) (by omega)
    rw [List.range'_succ, ladder] at h
    obtain ⟨left, s₁, hleft, h⟩ := bind_eq_ok_iff.mp h
    rw [rounds_bind] at h
    obtain ⟨hpasses, hwf, hlevel⟩ := htighter s left s₁ hs hleft
    exact chain_sound htighter _ left e s s₁ s' hs hpasses hwf (by omega) h

/-- An expression is the one that was written. -/
theorem expressionBody_sound : Sound (expressionBody inner) Expr.slots Expr.WellFormed := by
  intro s e s' hs h
  unfold expressionBody at h
  rw [current_bind] at h
  split at h
  · -- A dollar sign: an assignment must follow.
    next hdollar =>
    obtain ⟨s₁, hread, h⟩ := (advance_bind_eq_ok_iff hdollar (by simp)).mp h
    obtain ⟨target, s₂, htarget, h⟩ := identifier_bind_eq_ok_iff.mp h
    obtain ⟨s₃, hassign, h⟩ := (expect_bind_eq_ok_iff (by simp)).mp h
    obtain ⟨value, s₄, hvalue, h⟩ := bind_eq_ok_iff.mp h
    obtain ⟨rfl, rfl⟩ := pure_eq_ok_iff.mp h
    have hs₃ := hassign.closed (htarget.closed (hread.closed hs))
    obtain ⟨hpasses, hwf⟩ := hinner.expression s₃ value s₄ hs₃ hvalue
    rw [Expr.slots, Expr.WellFormed]
    refine ⟨Passes.dollar_iff.mpr (.inr ⟨s₁, hread, ?_⟩), hwf⟩
    exact Passes.token_iff.mpr ⟨s₂, htarget, Passes.token_iff.mpr ⟨s₃, hassign, hpasses⟩⟩
  · -- Without a dollar sign, what stands in front is read as an expression.
    obtain ⟨left, s₁, hleft, h⟩ := bind_eq_ok_iff.mp h
    obtain ⟨hpasses, hwf, -⟩ := ladder_sound hinner 7 1 rfl s left s₁ hs hleft
    rw [current_bind] at h
    split at h
    · next hassign =>
      -- Only a name can be assigned to, and its slot is the target's.
      cases left with
      | name target =>
        obtain ⟨s₂, hread, h⟩ := (advance_bind_eq_ok_iff hassign (by simp)).mp h
        obtain ⟨value, s₃, hvalue, h⟩ := bind_eq_ok_iff.mp h
        obtain ⟨rfl, rfl⟩ := pure_eq_ok_iff.mp h
        have hs₂ := hread.closed (hpasses.closed hs)
        obtain ⟨hpasses', hwf'⟩ := hinner.expression s₂ value s₃ hs₂ hvalue
        rw [Expr.slots] at hpasses
        rw [Expr.slots, Expr.WellFormed]
        refine ⟨Passes.dollar_iff.mpr (.inl ?_), hwf'⟩
        exact Passes.token_iff.mpr
          ⟨s₁, Passes.single_iff.mp hpasses, Passes.token_iff.mpr ⟨s₂, hread, hpasses'⟩⟩
      | assign | binary | cast | unary | call | lambda | paren | literal =>
        exact absurd h (fail_ne_ok _)
    · obtain ⟨rfl, rfl⟩ := pure_eq_ok_iff.mp h
      exact ⟨hpasses, hwf⟩

end Expressions

/-! ## Statements -/

section Statements

variable {inner : Nested} (hinner : inner.Sound)
include hinner

/-- A condition is the expression that was written in parentheses. -/
theorem condition_sound (k : Keyword) : Sound (condition inner k)
    (fun e => .symbol .leftParen :: (e.slots ++ [.symbol .rightParen])) Expr.WellFormed := by
  intro s e s' hs h
  unfold condition at h
  obtain ⟨s₁, hopen, h⟩ := (expect_bind_eq_ok_iff (by simp)).mp h
  rw [current_bind] at h
  split at h
  · obtain ⟨e', s₂, he, h⟩ := bind_eq_ok_iff.mp h
    obtain ⟨s₃, hclose, h⟩ := (expect_bind_eq_ok_iff (by simp)).mp h
    obtain ⟨rfl, rfl⟩ := pure_eq_ok_iff.mp h
    obtain ⟨hpasses, hwf⟩ := hinner.expression s₁ e' s₂ (hopen.closed hs) he
    refine ⟨?_, hwf⟩
    exact Passes.token_iff.mpr
      ⟨s₁, hopen, Passes.append_iff.mpr ⟨s₂, hpasses, Passes.single_iff.mpr hclose⟩⟩
  · exact absurd h (fail_ne_ok _)

omit hinner in
/-- The mark of what can be assigned to passes its slot, if it is there. -/
theorem passes_mutability {mutable : Bool} (h : mutability s = .ok mutable s') :
    Passes (if mutable then [.keyword .mutKey] else []) s s' := by
  rcases mutability_eq_ok_iff.mp h with ⟨rfl, hread⟩ | ⟨rfl, -, rfl⟩
  · exact Passes.single_iff.mpr hread
  · exact Passes.nil_iff.mpr rfl

/-- A declaration is the one that was written. -/
theorem declaration_sound (hs : s.Closed) (ht : s.current.token = .keyword .letKey) {st : Stmt}
    (h : statement inner s = .ok st s') : Passes st.slots s s' ∧ st.WellFormed := by
  unfold statement at h
  rw [current_bind, ht] at h
  obtain ⟨s₁, hlet, h⟩ := (advance_bind_eq_ok_iff ht (by simp)).mp h
  obtain ⟨mutable, s₂, hm, h⟩ := bind_eq_ok_iff.mp h
  obtain ⟨name, s₃, hname, h⟩ := identifier_bind_eq_ok_iff.mp h
  obtain ⟨s₄, hassign, h⟩ := (expect_bind_eq_ok_iff (by simp)).mp h
  obtain ⟨value, s₅, hvalue, h⟩ := bind_eq_ok_iff.mp h
  -- A name, an equality sign and the value follow in this order.
  obtain ⟨s₆, hend, h⟩ := (expect_bind_eq_ok_iff (by simp)).mp h
  obtain ⟨rfl, rfl⟩ := pure_eq_ok_iff.mp h
  have hmut := passes_mutability hm
  have hs₄ := hassign.closed (hname.closed (hmut.closed (hlet.closed hs)))
  obtain ⟨hpasses, hwf⟩ := hinner.expression s₄ value s₅ hs₄ hvalue
  rw [Stmt.slots, Stmt.WellFormed]
  refine ⟨Passes.token_iff.mpr ⟨s₁, hlet, Passes.append_iff.mpr ⟨s₂, hmut, ?_⟩⟩, hwf⟩
  refine Passes.token_iff.mpr ⟨s₃, hname, Passes.token_iff.mpr ⟨s₄, hassign, ?_⟩⟩
  exact Passes.append_iff.mpr ⟨s₅, hpasses, Passes.single_iff.mpr hend⟩

/-- A function is the one that was written, with distinct parameters. -/
theorem function_sound (hs : s.Closed) (ht : s.current.token = .keyword .fnKey) {st : Stmt}
    (h : statement inner s = .ok st s') : Passes st.slots s s' ∧ st.WellFormed := by
  unfold statement at h
  rw [current_bind, ht] at h
  obtain ⟨s₁, hfn, h⟩ := (advance_bind_eq_ok_iff ht (by simp)).mp h
  obtain ⟨name, s₂, hname, h⟩ := identifier_bind_eq_ok_iff.mp h
  obtain ⟨ps, s₃, hparameters, h⟩ := bind_eq_ok_iff.mp h
  obtain ⟨body, s₄, hbody, h⟩ := bind_eq_ok_iff.mp h
  obtain ⟨rfl, rfl⟩ := pure_eq_ok_iff.mp h
  have hs₂ := hname.closed (hfn.closed hs)
  obtain ⟨hps, hdistinct⟩ := parameters_sound s₂ ps s₃ hs₂ hparameters
  obtain ⟨hpasses, hwf⟩ := hinner.block s₃ body s₄ (hps.closed hs₂) hbody
  rw [Stmt.slots, Stmt.WellFormed]
  refine ⟨Passes.token_iff.mpr ⟨s₁, hfn, Passes.token_iff.mpr ⟨s₂, hname, ?_⟩⟩, hdistinct, hwf⟩
  exact Passes.append_iff.mpr ⟨s₃, hps, hpasses⟩

/-- A loop is the one that was written. -/
theorem loop_sound (hs : s.Closed) (ht : s.current.token = .keyword .whileKey) {st : Stmt}
    (h : statement inner s = .ok st s') : Passes st.slots s s' ∧ st.WellFormed := by
  unfold statement at h
  rw [current_bind, ht] at h
  obtain ⟨s₁, hwhile, h⟩ := (advance_bind_eq_ok_iff ht (by simp)).mp h
  obtain ⟨test, s₂, htest, h⟩ := bind_eq_ok_iff.mp h
  obtain ⟨body, s₃, hbody, h⟩ := bind_eq_ok_iff.mp h
  obtain ⟨rfl, rfl⟩ := pure_eq_ok_iff.mp h
  have hs₁ := hwhile.closed hs
  obtain ⟨hpasses, hwf⟩ := condition_sound hinner .whileKey s₁ test s₂ hs₁ htest
  obtain ⟨hpasses', hwf'⟩ := hinner.block s₂ body s₃ (hpasses.closed hs₁) hbody
  rw [Stmt.slots, Stmt.WellFormed]
  refine ⟨Passes.token_iff.mpr ⟨s₁, hwhile, ?_⟩, hwf, hwf'⟩
  -- The condition and the body are lists of their own, and one list in the slots of the loop.
  have happend := Passes.append_iff.mpr ⟨s₂, hpasses, hpasses'⟩
  rwa [List.cons_append, List.append_assoc] at happend

/-- A return is the one that was written, with a value or without. -/
theorem leave_sound (hs : s.Closed) (ht : s.current.token = .keyword .returnKey) {st : Stmt}
    (h : statement inner s = .ok st s') : Passes st.slots s s' ∧ st.WellFormed := by
  unfold statement at h
  rw [current_bind, ht] at h
  obtain ⟨s₁, hreturn, h⟩ := (advance_bind_eq_ok_iff ht (by simp)).mp h
  rw [current_bind] at h
  simp only at h
  split at h
  · -- A semicolon stands right behind the keyword.
    obtain ⟨value, s₂, hnone, h⟩ := bind_eq_ok_iff.mp h
    obtain ⟨rfl, rfl⟩ := pure_eq_ok_iff.mp hnone
    obtain ⟨s₃, hend, h⟩ := (expect_bind_eq_ok_iff (by simp)).mp h
    obtain ⟨rfl, rfl⟩ := pure_eq_ok_iff.mp h
    rw [Stmt.slots, Stmt.WellFormed]
    exact ⟨Passes.token_iff.mpr ⟨s₁, hreturn, Passes.single_iff.mpr hend⟩, trivial⟩
  · -- There is a value.
    obtain ⟨value, s₂, hvalue, h⟩ := bind_eq_ok_iff.mp h
    obtain ⟨e, he, rfl⟩ := map_eq_ok_iff.mp hvalue
    obtain ⟨s₃, hend, h⟩ := (expect_bind_eq_ok_iff (by simp)).mp h
    obtain ⟨rfl, rfl⟩ := pure_eq_ok_iff.mp h
    obtain ⟨hpasses, hwf⟩ := hinner.expression s₁ e s₂ (hreturn.closed hs) he
    rw [Stmt.slots, Stmt.WellFormed]
    refine ⟨Passes.token_iff.mpr ⟨s₁, hreturn, ?_⟩, hwf⟩
    exact Passes.append_iff.mpr ⟨s₂, hpasses, Passes.single_iff.mpr hend⟩

/-- What is no other statement is an expression. -/
theorem expressionStatement_sound (hs : s.Closed) {st : Stmt}
    (h : (do
      let e ← inner.expression
      expect (.symbol .semicolon)
      return Stmt.expression e : Parse Stmt) s = .ok st s') :
    Passes st.slots s s' ∧ st.WellFormed := by
  obtain ⟨e, s₁, he, h⟩ := bind_eq_ok_iff.mp h
  obtain ⟨s₂, hend, h⟩ := (expect_bind_eq_ok_iff (by simp)).mp h
  obtain ⟨rfl, rfl⟩ := pure_eq_ok_iff.mp h
  obtain ⟨hpasses, hwf⟩ := hinner.expression s e s₁ hs he
  rw [Stmt.slots, Stmt.WellFormed]
  exact ⟨Passes.append_iff.mpr ⟨s₁, hpasses, Passes.single_iff.mpr hend⟩, hwf⟩

/-- A statement is the one that was written. -/
theorem statement_sound : Sound (statement inner) Stmt.slots Stmt.WellFormed := by
  intro s st s' hs h
  have hstatement := h
  unfold statement at h
  rw [current_bind] at h
  cases ht : s.current.token with
  | keyword k =>
    rw [ht] at h
    -- A keyword that starts no other statement may be the start of an expression, such as a truth
    -- value.
    cases k with
    | letKey => exact declaration_sound hinner hs ht hstatement
    | fnKey => exact function_sound hinner hs ht hstatement
    | whileKey => exact loop_sound hinner hs ht hstatement
    | returnKey => exact leave_sound hinner hs ht hstatement
    | ifKey =>
      obtain ⟨c, s₁, hc, h⟩ := bind_eq_ok_iff.mp h
      obtain ⟨rfl, rfl⟩ := pure_eq_ok_iff.mp h
      rw [Stmt.slots, Stmt.WellFormed]
      exact hinner.conditional s c s₁ hs ht hc
    | mutKey | elseKey | truth | type => exact expressionStatement_sound hinner hs h
  | symbol sym =>
    rw [ht] at h
    cases sym with
    | semicolon =>
      obtain ⟨s₁, hread, h⟩ := (advance_bind_eq_ok_iff ht (by simp)).mp h
      obtain ⟨rfl, rfl⟩ := pure_eq_ok_iff.mp h
      rw [Stmt.slots, Stmt.WellFormed]
      exact ⟨Passes.single_iff.mpr hread, trivial⟩
    | _ => exact expressionStatement_sound hinner hs h
  | endOfFile | identifier | str | int | float =>
    rw [ht] at h
    exact expressionStatement_sound hinner hs h

/-- The statements of a block are those that were written in front of its closing brace. -/
theorem blockStatements_sound (rs : List Lexed) : Sound (blockStatements inner rs)
    (fun ss => Stmt.listSlots ss ++ [.symbol .rightCurly]) Stmt.AllWellFormed := by
  induction rs with
  | nil =>
    intro s ss s' _ h
    exact absurd h (unexpected_ne_ok _)
  | cons r rs ih =>
    -- Unless the block ends here, a statement is parsed and then the others.
    have hmore : Sound (do
        let st ← statement inner
        return st :: (← blockStatements inner rs))
        (fun ss => Stmt.listSlots ss ++ [.symbol .rightCurly]) Stmt.AllWellFormed := by
      intro s ss s' hs h
      obtain ⟨st, s₁, hst, h⟩ := bind_eq_ok_iff.mp h
      obtain ⟨ss', s₂, hss, h⟩ := bind_eq_ok_iff.mp h
      obtain ⟨rfl, rfl⟩ := pure_eq_ok_iff.mp h
      obtain ⟨hpasses, hwf⟩ := statement_sound hinner s st s₁ hs hst
      obtain ⟨hpasses', hwf'⟩ := ih s₁ ss' s₂ (hpasses.closed hs) hss
      rw [Stmt.AllWellFormed]
      refine ⟨?_, hwf, hwf'⟩
      simp only [Stmt.listSlots, List.append_assoc]
      exact Passes.append_iff.mpr ⟨s₁, hpasses, hpasses'⟩
    intro s ss s' hs h
    unfold blockStatements at h
    rw [current_bind] at h
    cases ht : s.current.token with
    | symbol sym =>
      rw [ht] at h
      cases sym with
      -- The closing brace is consumed with the block.
      | rightCurly =>
        obtain ⟨s₁, hread, h⟩ := (advance_bind_eq_ok_iff ht (by simp)).mp h
        obtain ⟨rfl, rfl⟩ := pure_eq_ok_iff.mp h
        simp only [Stmt.listSlots, List.nil_append, Stmt.AllWellFormed]
        exact ⟨Passes.single_iff.mpr hread, trivial⟩
      | _ => exact hmore s ss s' hs h
    | endOfFile =>
      rw [ht] at h
      exact absurd h (unexpected_ne_ok _)
    | keyword | identifier | str | int | float =>
      rw [ht] at h
      exact hmore s ss s' hs h

/-- A block has the statements that were written between its braces. -/
theorem blockBody_sound : Sound (blockBody inner) Stmt.blockSlots Stmt.AllWellFormed := by
  intro s ss s' hs h
  unfold blockBody at h
  obtain ⟨s₁, hopen, h⟩ := (expect_bind_eq_ok_iff (by simp)).mp h
  rw [rounds_bind] at h
  obtain ⟨hpasses, hwf⟩ := blockStatements_sound hinner _ s₁ ss s' (hopen.closed hs) h
  exact ⟨Passes.token_iff.mpr ⟨s₁, hopen, hpasses⟩, hwf⟩

/-- What follows a conditional is what was written there. -/
theorem alternative_sound :
    Sound (alternative inner) Alternative.slots Alternative.WellFormed := by
  intro s a s' hs h
  unfold alternative at h
  rw [current_bind] at h
  split at h
  · -- Behind `else` stands a further conditional or a block, and nothing else.
    next helse =>
    obtain ⟨s₁, hread, h⟩ := (advance_bind_eq_ok_iff helse (by simp)).mp h
    have hs₁ := hread.closed hs
    rw [current_bind] at h
    cases ht : s₁.current.token with
    | keyword k =>
      rw [ht] at h
      cases k with
      -- A further conditional.
      | ifKey =>
        obtain ⟨c, s₂, hc, h⟩ := bind_eq_ok_iff.mp h
        obtain ⟨rfl, rfl⟩ := pure_eq_ok_iff.mp h
        obtain ⟨hpasses, hwf⟩ := hinner.conditional s₁ c s₂ hs₁ ht hc
        rw [Alternative.slots, Alternative.WellFormed]
        exact ⟨Passes.token_iff.mpr ⟨s₁, hread, hpasses⟩, hwf⟩
      | _ => exact absurd h (unexpected_ne_ok _)
    | symbol sym =>
      rw [ht] at h
      cases sym with
      -- A block.
      | leftCurly =>
        obtain ⟨body, s₂, hbody, h⟩ := bind_eq_ok_iff.mp h
        obtain ⟨rfl, rfl⟩ := pure_eq_ok_iff.mp h
        obtain ⟨hpasses, hwf⟩ := hinner.block s₁ body s₂ hs₁ hbody
        rw [Alternative.slots, Alternative.WellFormed]
        exact ⟨Passes.token_iff.mpr ⟨s₁, hread, hpasses⟩, hwf⟩
      | _ => exact absurd h (unexpected_ne_ok _)
    | endOfFile | identifier | str | int | float =>
      rw [ht] at h
      exact absurd h (unexpected_ne_ok _)
  · -- Without `else` nothing is consumed.
    obtain ⟨rfl, rfl⟩ := pure_eq_ok_iff.mp h
    rw [Alternative.slots, Alternative.WellFormed]
    exact ⟨Passes.nil_iff.mpr rfl, trivial⟩

/-- A conditional is the one that was written. -/
theorem conditionalBody_sound (hs : s.Closed) (ht : s.current.token = .keyword .ifKey)
    {c : Conditional} (h : conditionalBody inner s = .ok c s') :
    Passes c.slots s s' ∧ c.WellFormed := by
  unfold conditionalBody at h
  obtain ⟨s₁, hif, h⟩ := (advance_bind_eq_ok_iff ht (by simp)).mp h
  obtain ⟨test, s₂, htest, h⟩ := bind_eq_ok_iff.mp h
  obtain ⟨body, s₃, hbody, h⟩ := bind_eq_ok_iff.mp h
  obtain ⟨otherwise, s₄, hotherwise, h⟩ := bind_eq_ok_iff.mp h
  obtain ⟨rfl, rfl⟩ := pure_eq_ok_iff.mp h
  have hs₁ := hif.closed hs
  obtain ⟨hpasses₁, hwf₁⟩ := condition_sound hinner .ifKey s₁ test s₂ hs₁ htest
  have hs₂ := hpasses₁.closed hs₁
  obtain ⟨hpasses₂, hwf₂⟩ := hinner.block s₂ body s₃ hs₂ hbody
  obtain ⟨hpasses₃, hwf₃⟩ :=
    alternative_sound hinner s₃ otherwise s₄ (hpasses₂.closed hs₂) hotherwise
  rw [Conditional.slots, Conditional.WellFormed]
  refine ⟨Passes.token_iff.mpr ⟨s₁, hif, ?_⟩, hwf₁, hwf₂, hwf₃⟩
  -- The condition, the block and the alternative are consumed one behind the other.
  have happend :=
    Passes.append_iff.mpr ⟨s₂, hpasses₁, Passes.append_iff.mpr ⟨s₃, hpasses₂, hpasses₃⟩⟩
  simpa only [Stmt.blockSlots, List.cons_append, List.append_assoc, List.nil_append] using happend

end Statements

/-! ## Levels and programs -/

/-- The parsers that may open a number of levels are sound. -/
theorem levels_sound (max n : Nat) :
    Nested.Sound ⟨expression max n, block max n, conditional max n⟩ := by
  induction n with
  | zero =>
    -- No level may be opened: the parsers only fail.
    refine ⟨fun s e s' _ h => ?_, fun s ss s' _ h => ?_, fun s c s' _ _ h => ?_⟩
    · exact absurd h (fail_ne_ok _)
    · exact absurd h (fail_ne_ok _)
    · exact absurd h (fail_ne_ok _)
  | succ n ih =>
    exact ⟨expressionBody_sound ih, blockBody_sound ih,
      fun s c s' hs ht h => conditionalBody_sound ih hs ht h⟩

/-- What is parsed at the outermost level is what was written. -/
theorem nested_sound (max : Nat) : (nested max).Sound := levels_sound max max

/-- The statements of a program go on to the end of the file. -/
theorem topStatements_sound {inner : Nested} (hinner : inner.Sound) (rs : List Lexed) :
    ∀ (s s' : State) (ss : List Stmt), s.Closed → s.size ≤ rs.length →
    topStatements inner rs s = .ok ss s' →
    Passes (Stmt.listSlots ss) s s' ∧ Stmt.AllWellFormed ss ∧ s'.current.token = .endOfFile := by
  induction rs with
  | nil =>
    intro s s' ss _ hsize h
    unfold topStatements at h
    obtain ⟨rfl, rfl⟩ := pure_eq_ok_iff.mp h
    rw [Stmt.listSlots, Stmt.AllWellFormed]
    refine ⟨Passes.nil_iff.mpr rfl, trivial, ?_⟩
    unfold State.size at hsize
    by_cases hend : s.current.token = .endOfFile
    · exact hend
    · -- A token could still be read, and there would be a round for it.
      rw [if_neg hend, List.length_nil] at hsize
      omega
  | cons r rs ih =>
    intro s s' ss hs hsize h
    unfold topStatements at h
    rw [current_bind] at h
    split at h
    · -- The source ends here.
      next hend =>
      obtain ⟨rfl, rfl⟩ := pure_eq_ok_iff.mp h
      rw [Stmt.listSlots, Stmt.AllWellFormed]
      exact ⟨Passes.nil_iff.mpr rfl, trivial, hend⟩
    · -- A statement is parsed and then the others, for which there are rounds left.
      obtain ⟨st, s₁, hst, h⟩ := bind_eq_ok_iff.mp h
      obtain ⟨ss', s₂, hss, h⟩ := bind_eq_ok_iff.mp h
      obtain ⟨rfl, rfl⟩ := pure_eq_ok_iff.mp h
      obtain ⟨hpasses, hwf⟩ := statement_sound hinner s st s₁ hs hst
      have hsize₁ := hpasses.size_lt hs st.tokens_slots_ne_nil
      rw [List.length_cons] at hsize
      obtain ⟨hpasses', hwf', hend⟩ := ih s₁ s₂ ss' (hpasses.closed hs) (by omega) hss
      rw [Stmt.listSlots, Stmt.AllWellFormed]
      exact ⟨Passes.append_iff.mpr ⟨s₁, hpasses, hpasses'⟩, ⟨hwf, hwf'⟩, hend⟩

/-- A program that is parsed has been written to the end of the file. -/
theorem program_sound (max : Nat) {p : Program} (hs : s.Closed) (h : program max s = .ok p s') :
    Passes p.slots s s' ∧ Stmt.AllWellFormed p.statements ∧ s'.current.token = .endOfFile := by
  unfold program at h
  rw [rounds_bind] at h
  obtain ⟨ss, s₁, hss, h⟩ := bind_eq_ok_iff.mp h
  obtain ⟨rfl, rfl⟩ := pure_eq_ok_iff.mp h
  exact topStatements_sound (nested_sound max) _ s s₁ ss hs (size_le_length_rounds s) hss

end Brisk.Parse
