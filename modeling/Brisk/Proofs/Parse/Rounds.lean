import Brisk.Proofs.Parse.Sound

/-!
# Loops without their rounds

The loops of the parser count rounds, so that they end on every stream. On a stream that ends with
the end of file or an error the count does not matter: as long as there is a round for every token
that can still be read, further rounds change nothing (`Loop.rounds_irrelevant`). So each loop
satisfies the equation that it would have without a count (`Loop.unbounded_eq`).

What that takes is the same for all loops, and is said once in `Loop`: one round of the loop is a
step, and from one step to the next tokens have been read. A loop that starts with an item needs a
round for that in any case, and reads a separator too before it goes on; that is its margin of one.
The other loops may run out of rounds, but only at the end of the file, where they stop anyway.
-/

namespace Brisk.Parse

variable {α β ι : Type} {s s' : State}

/-- Two sequences are the same if they go on alike from where the first part ends. -/
theorem bind_congr {p : Parse α} {f g : α → Parse β}
    (h : ∀ a s', p s = .ok a s' → f a s' = g a s') : (p >>= f) s = (p >>= g) s := by
  show EStateM.bind p f s = EStateM.bind p g s
  unfold EStateM.bind
  cases hp : p s with
  | ok a s' => exact h a s' hp
  | error e s' => rfl

/-- Two sequences are the same if their first parts are. -/
theorem bind_congr_left {p q : Parse α} {f : α → Parse β} (h : p s = q s) :
    (p >>= f) s = (q >>= f) s := by
  show EStateM.bind p f s = EStateM.bind q f s
  unfold EStateM.bind
  rw [h]

/-- A state from which no token can be read is at the end of the file. -/
theorem State.current_of_size {s : State} (h : s.size = 0) : s.current.token = .endOfFile := by
  unfold State.size at h
  by_cases hend : s.current.token = .endOfFile
  · exact hend
  · rw [if_neg hend] at h
    omega

/-! ## Loops -/

/-- A loop, given by its rounds and by what it carries along, takes one step in each round. From one
step to the next it reads a token, and as many more as the margin says. -/
structure Loop (margin : Nat) (loop : List Lexed → ι → Parse α)
    (step : (ι → Parse α) → ι → Parse α) : Prop where
  round : ∀ r rs i, loop (r :: rs) i = step (loop rs) i
  /-- Without a margin the rounds may run out, where nothing can be read. -/
  stop : ∀ more i s, margin = 0 → s.size = 0 → loop [] i s = step more i s
  progress : ∀ f g i s, s.Closed →
    (∀ j s', s'.Closed → s'.size + 1 + margin ≤ s.size → f j s' = g j s') →
    step f i s = step g i s

namespace Loop

variable {margin : Nat} {loop : List Lexed → ι → Parse α} {step : (ι → Parse α) → ι → Parse α}

/-- Further rounds change nothing when there are enough. -/
theorem rounds_irrelevant (h : Loop margin loop step) (rs : List Lexed) : ∀ (rs' : List Lexed)
    (i : ι) (s : State), s.Closed → s.size ≤ rs.length → margin ≤ rs.length →
    s.size ≤ rs'.length → margin ≤ rs'.length → loop rs i s = loop rs' i s := by
  -- A step uses up a round and reads a token at least, so enough rounds stay enough.
  induction rs with
  | nil =>
    intro rs' i s _ hsize hmargin _ _
    have hmargin := Nat.le_zero.mp hmargin
    have hsize := Nat.le_zero.mp hsize
    cases rs' with
    | nil => rfl
    | cons r' rs' => rw [h.round, h.stop _ i s hmargin hsize]
  | cons r rs ih =>
    intro rs' i s hs hsize hmargin hsize' hmargin'
    cases rs' with
    | nil =>
      rw [h.round, h.stop _ i s (Nat.le_zero.mp hmargin') (Nat.le_zero.mp hsize')]
    | cons r' rs' =>
      rw [List.length_cons] at hsize hsize'
      rw [h.round, h.round]
      refine h.progress _ _ i s hs fun j s' hs' hlt => ?_
      exact ih rs' j s' hs' (by omega) (by omega) (by omega) (by omega)

/-- A loop with a round for every token that can still be read. -/
def unbounded (loop : List Lexed → ι → Parse α) (i : ι) : Parse α := do loop (← rounds) i

/-- A loop with enough rounds takes a step, and goes on with enough rounds. -/
theorem unbounded_eq (h : Loop margin loop step) (hmargin : margin ≤ 1) (i : ι) (hs : s.Closed) :
    unbounded loop i s = step (unbounded loop) i s := by
  have hsize := size_le_length_rounds s
  unfold unbounded
  rw [rounds_bind, h.round]
  refine h.progress _ _ i s hs fun j s' hs' hlt => ?_
  -- The rounds that are left have been counted in front of the step, and the others behind it.
  rw [List.length_cons] at hsize
  rw [rounds_bind]
  refine h.rounds_irrelevant _ _ j s' hs' (by omega) (by omega) (size_le_length_rounds s') ?_
  rw [List.length_cons]
  omega

end Loop

/-! ## The loops of the parser -/

/-- Consumes a parameter, and goes on with `more` behind a comma. -/
def parameterStep (more : List String → Parse (List Parameter)) (seen : List String) :
    Parse (List Parameter) := do
  let mutable ← mutability
  let start ← position
  match ← current with
  | .identifier name =>
    advance
    if name ∈ seen then throw (.invalid start (.duplicateParameter name))
    else if (← current) = .symbol .comma then
      advance
      return ⟨name, mutable⟩ :: (← more (name :: seen))
    else return [⟨name, mutable⟩]
  | token => fail (.expectedParameter token)

/-- The loop over parameters takes a round for each of them, and a comma stands between two. -/
theorem parameterLoop : Loop 1 (fun rs seen => parameterList seen rs) parameterStep where
  round _ _ _ := rfl
  stop _ _ _ h := absurd h (by decide)
  progress f g seen s hs h := by
    unfold parameterStep
    refine bind_congr fun mutable s₁ hm => ?_
    rw [position_bind, position_bind, current_bind, current_bind]
    cases ht : s₁.current.token with
    | identifier name =>
      refine bind_congr fun _ s₂ hname => ?_
      split
      · rfl
      rw [current_bind, current_bind]
      split
      · -- Only behind a comma does the loop go on.
        next hcomma =>
        refine bind_congr fun _ s₃ hread => bind_congr_left (h _ s₃ ?_ ?_)
        all_goals
          have hp : Passes (Parameter.slots ⟨name, mutable⟩) s s₂ :=
            passes_parameter hm (reads_of_advance hname ht (by simp))
          have hread := reads_of_advance hread hcomma (by simp)
        · exact hread.closed (hp.closed hs)
        · exact hp.size_add_two_le hread hs (Parameter.tokens_slots_ne_nil _)
      · rfl
    | endOfFile | symbol | keyword | str | int | float => rfl

/-- Consumes an argument, and goes on with `more` behind a comma. -/
def argumentStep (inner : Nested) (more : Unit → Parse (List Expr)) (_ : Unit) :
    Parse (List Expr) := do
  let argument ← inner.expression
  if (← current) = .symbol .comma then
    advance
    return argument :: (← more ())
  else return [argument]

/-- The loop over arguments takes a round for each of them, and a comma stands between two. -/
theorem argumentLoop {inner : Nested} (hinner : inner.Sound) :
    Loop 1 (fun rs (_ : Unit) => argumentList inner rs) (argumentStep inner) where
  round _ _ _ := rfl
  stop _ _ _ h := absurd h (by decide)
  progress f g _ s hs h := by
    unfold argumentStep
    refine bind_congr fun e s₁ he => ?_
    obtain ⟨hpasses, -⟩ := hinner.expression s e s₁ hs he
    rw [current_bind, current_bind]
    split
    · -- The argument and the comma behind it are two tokens that have been read.
      next hcomma =>
      refine bind_congr fun _ s₂ hread => bind_congr_left (h _ s₂ ?_ ?_)
      all_goals have hread := reads_of_advance hread hcomma (by simp)
      · exact hread.closed (hpasses.closed hs)
      · exact hpasses.size_add_two_le hread hs e.tokens_slots_ne_nil
    · rfl

/-- Consumes an operator of a level and its right operand, and goes on with `more`. -/
def chainStep (level : Nat) (operand : Parse Expr) (more : Expr → Parse Expr) (left : Expr) :
    Parse Expr := do
  match binaryOp? level (← current) with
  | none => return left
  | some op =>
    advance
    let right ← operand
    more (.binary op left right)

/-- The loop over the operators of a level takes a round for each of them. -/
theorem chainLoop {level : Nat} {operand : Parse Expr} {P : Expr → Prop}
    (hoperand : Sound operand Expr.slots P) :
    Loop 0 (fun rs left => chain level operand rs left) (chainStep level operand) where
  round _ _ _ := rfl
  stop more left s _ hsize := by
    unfold chainStep chain
    rw [current_bind, State.current_of_size hsize]
    rfl
  progress f g left s hs h := by
    unfold chainStep
    rw [current_bind, current_bind]
    cases hop : binaryOp? level s.current.token with
    | none => rfl
    | some op =>
      -- The operator and its operand are tokens that have been read.
      refine bind_congr fun _ s₁ hread => bind_congr fun right s₂ hright => h _ s₂ ?_ ?_
      all_goals
        have hread := reads_of_advance hread (binaryOp?_eq_some hop).1 (by simp)
        obtain ⟨hpasses, -⟩ := hoperand s₁ right s₂ (hread.closed hs) hright
      · exact hpasses.closed (hread.closed hs)
      · have hsize := hread.size_lt hs (by simp)
        have hsize' := hpasses.length_add_size_le (hread.closed hs)
        omega

/-- Consumes the brace that closes a block, or a statement, and goes on with `more`. -/
def blockStep (inner : Nested) (more : Unit → Parse (List Stmt)) (_ : Unit) :
    Parse (List Stmt) := do
  match ← current with
  | .symbol .rightCurly =>
    advance
    return []
  | .endOfFile => unexpected (Token.symbol .rightCurly).describe
  | _ =>
    let s ← statement inner
    return s :: (← more ())

/-- A statement consumes at least one token, so what follows it is compared on fewer of them. -/
theorem statement_progress {inner : Nested} (hinner : inner.Sound) (hs : s.Closed)
    {f g : Parse (List Stmt)}
    (h : ∀ s', s'.Closed → s'.size + 1 + 0 ≤ s.size → f s' = g s') :
    (do
      let st ← statement inner
      return st :: (← f) : Parse (List Stmt)) s = (do
      let st ← statement inner
      return st :: (← g) : Parse (List Stmt)) s := by
  refine bind_congr fun st s₁ hst => bind_congr_left ?_
  obtain ⟨hpasses, -⟩ := statement_sound hinner s st s₁ hs hst
  exact h s₁ (hpasses.closed hs) (hpasses.size_lt hs st.tokens_slots_ne_nil)

/-- The loop over the statements of a block takes a round for each of them. -/
theorem blockLoop {inner : Nested} (hinner : inner.Sound) :
    Loop 0 (fun rs (_ : Unit) => blockStatements inner rs) (blockStep inner) where
  round _ _ _ := rfl
  stop more _ s _ hsize := by
    unfold blockStep blockStatements
    rw [current_bind, State.current_of_size hsize]
  progress f g _ s hs h := by
    have hmore := statement_progress hinner hs fun s' => h () s'
    unfold blockStep
    rw [current_bind, current_bind]
    -- Only a closing brace and the end of the source end the loop.
    cases s.current.token with
    | symbol sym => cases sym <;> first | rfl | exact hmore
    | endOfFile => rfl
    | keyword | identifier | str | int | float => exact hmore

/-- Stops at the end of the file, or consumes a statement and goes on with `more`. -/
def topStep (inner : Nested) (more : Unit → Parse (List Stmt)) (_ : Unit) :
    Parse (List Stmt) := do
  if (← current) = .endOfFile then return []
  else
    let s ← statement inner
    return s :: (← more ())

/-- The loop over the statements of a program takes a round for each of them. -/
theorem topLoop {inner : Nested} (hinner : inner.Sound) :
    Loop 0 (fun rs (_ : Unit) => topStatements inner rs) (topStep inner) where
  round _ _ _ := rfl
  stop more _ s _ hsize := by
    unfold topStep topStatements
    rw [current_bind, State.current_of_size hsize, if_pos rfl]
  progress f g _ s hs h := by
    have hmore := statement_progress hinner hs fun s' => h () s'
    unfold topStep
    rw [current_bind, current_bind]
    split
    · rfl
    · exact hmore

end Brisk.Parse
