import Brisk.Proofs.Parse.Program

/-!
# Parsed trees keep the limit on nesting

A parser that may open `n` further levels only yields trees in which no more than that are open at
once (`program_nesting`). Which tokens it consumes does not matter for that, so the parsers are
described by their results alone: `Gives p P` says that every result of `p` has the property `P`,
and it is closed under sequencing.

Within a level the parsers are taken one by one, with those of the level further in as a parameter
(`Nested.Within`), and the levels are put together by induction on how many may still be opened
(`levels_within`).
-/

namespace Brisk.Parse

variable {α β : Type}

/-- Whatever a parser yields has a property. -/
def Gives (p : Parse α) (P : α → Prop) : Prop := ∀ s a s', p s = .ok a s' → P a

section Gives

variable {P : α → Prop} {Q : β → Prop}

/-- A result has the property that it has. -/
theorem gives_pure {a : α} (h : P a) : Gives (pure a) P := by
  intro s b s' hb
  rw [← (pure_eq_ok_iff.mp hb).1]
  exact h

/-- A sequence gives what its last parser gives for every result of the first one. -/
theorem gives_bind {p : Parse α} {f : α → Parse β} (hp : Gives p P)
    (hf : ∀ a, P a → Gives (f a) Q) : Gives (p >>= f) Q := by
  intro s b s'' h
  obtain ⟨a, s', ha, hb⟩ := bind_eq_ok_iff.mp h
  exact hf a (hp s a s' ha) s' b s'' hb

/-- Of some parsers it only matters that they come first. -/
theorem gives_then {p : Parse α} {f : α → Parse β} (hf : ∀ a, Gives (f a) Q) :
    Gives (p >>= f) Q := by
  intro s b s'' h
  obtain ⟨a, s', -, hb⟩ := bind_eq_ok_iff.mp h
  exact hf a s' b s'' hb

/-- A parser that fails gives nothing. -/
theorem gives_fail (fault : ParseFault) : Gives (fail fault) P :=
  fun _ _ _ h => absurd h (fail_ne_ok fault)

/-- A parser that expects another token gives nothing. -/
theorem gives_unexpected (expected : String) : Gives (unexpected expected) P :=
  fun _ _ _ h => absurd h (unexpected_ne_ok expected)

/-- A choice gives what both branches give. -/
theorem gives_ite {c : Prop} [Decidable c] {p q : Parse α} (hp : Gives p P) (hq : Gives q P) :
    Gives (if c then p else q) P := by
  split
  · exact hp
  · exact hq

/-- A result that is one of two possibilities has the property that it has. -/
theorem gives_some {p : Parse α} (h : Gives p P) :
    Gives (some <$> p) fun value => ∃ a, value = some a ∧ P a := by
  intro s value s' hvalue
  obtain ⟨a, ha, rfl⟩ := map_eq_ok_iff.mp hvalue
  exact ⟨a, rfl, h s a s' ha⟩

/-- What has a property has every weaker one. -/
theorem Gives.mono {P' : α → Prop} {p : Parse α} (h : Gives p P) (hP : ∀ a, P a → P' a) :
    Gives p P' :=
  fun s a s' ha => hP a (h s a s' ha)

end Gives

/-- Whether the parsers that open a level yield trees with less than `n` levels further in. -/
structure Nested.Within (inner : Nested) (n : Nat) : Prop where
  expression : Gives inner.expression (·.nesting < n)
  block : Gives inner.block (Stmt.listNesting · < n)
  conditional : Gives inner.conditional (·.nesting < n)

section Level

variable {inner : Nested} {n : Nat} (hinner : inner.Within n)
include hinner

/-! ## Expressions -/

/-- Arguments need the levels that are left if each of them does. -/
theorem argumentList_nesting (rs : List Lexed) :
    Gives (argumentList inner rs) (Expr.listNesting · ≤ n) := by
  induction rs with
  | nil =>
    unfold argumentList
    refine gives_pure ?_
    rw [Expr.listNesting]
    exact Nat.zero_le n
  | cons r rs ih =>
    unfold argumentList
    refine gives_bind hinner.expression fun e he => gives_then fun t => gives_ite ?_ ?_
    · refine gives_then fun _ => gives_bind ih fun es hes => gives_pure ?_
      rw [Expr.listNesting]
      omega
    · refine gives_pure ?_
      rw [Expr.listNesting, Expr.listNesting]
      omega

/-- Arguments in parentheses need no more than the levels that are left. -/
theorem arguments_nesting : Gives (arguments inner) (Expr.listNesting · ≤ n) := by
  unfold arguments
  -- Whether there are any arguments or none, they are closed by a parenthesis.
  have hclose : ∀ es : List Expr, Expr.listNesting es ≤ n → Gives (do
      expect (.symbol .rightParen)
      return es) (Expr.listNesting · ≤ n) :=
    fun es hes => gives_then fun _ => gives_pure hes
  refine gives_then fun _ => gives_then fun t => gives_ite ?_ ?_
  · refine gives_bind (gives_pure rfl) fun es hes => hclose es ?_
    rw [← hes, Expr.listNesting]
    exact Nat.zero_le n
  · exact gives_then fun rs => gives_bind (argumentList_nesting hinner rs) hclose

/-- A call needs no more levels than what is called and the arguments. -/
theorem callSuffix_nesting {callee : Expr} (h : callee.nesting ≤ n) :
    Gives (callSuffix inner callee) (·.nesting ≤ n) := by
  unfold callSuffix
  refine gives_then fun t => gives_ite ?_ (gives_pure h)
  refine gives_bind (arguments_nesting hinner) fun es hes => gives_pure ?_
  rw [Expr.nesting]
  omega

/-- An operand of the tightest level needs no more than the levels that are left: what it has in
parentheses or brackets is one level further in. -/
theorem primary_nesting : Gives (primary inner) (·.nesting ≤ n) := by
  unfold primary
  refine gives_then fun token => ?_
  cases literal? token with
  | some l =>
    refine gives_then fun _ => gives_pure ?_
    rw [Expr.nesting]
    exact Nat.zero_le n
  | none =>
    simp only
    split
    · -- A name needs no level.
      next name =>
      refine gives_then fun _ => callSuffix_nesting hinner ?_
      rw [Expr.nesting]
      exact Nat.zero_le n
    · -- Parentheses need one level more than what stands between them.
      refine gives_then fun _ => gives_bind hinner.expression fun e he => gives_then fun _ => ?_
      refine callSuffix_nesting hinner ?_
      rw [Expr.nesting]
      omega
    · -- The body of a lambda is one level further in, and its parameters need none.
      refine gives_then fun _ => gives_then fun ps => ?_
      refine gives_bind hinner.block fun body hbody => callSuffix_nesting hinner ?_
      rw [Expr.nesting]
      omega
    · -- What is called in brackets is one level further in, as the arguments are.
      refine gives_then fun _ => gives_bind hinner.expression fun callee hcallee => ?_
      refine gives_then fun _ => gives_bind (arguments_nesting hinner) fun es hes => gives_pure ?_
      rw [Expr.nesting]
      omega
    · exact gives_fail _

/-- Signs in front need no levels. -/
theorem unary_nesting : Gives (unary inner) (·.nesting ≤ n) := by
  unfold unary
  refine gives_then fun token => ?_
  cases unaryOp? token with
  | some op =>
    refine gives_then fun _ => gives_bind (primary_nesting hinner) fun e he => gives_pure ?_
    rw [Expr.nesting]
    exact he
  | none => exact primary_nesting hinner

/-- Types behind need no levels. -/
theorem cast_nesting : Gives (cast inner) (·.nesting ≤ n) := by
  unfold cast
  refine gives_bind (unary_nesting hinner) fun e he => gives_then fun t => gives_ite ?_ ?_
  · refine gives_then fun _ => gives_then fun t => ?_
    split
    · refine gives_then fun _ => gives_pure ?_
      rw [Expr.nesting]
      exact he
    · exact gives_fail _
  · exact gives_pure he

omit hinner in
/-- A row of operators needs no more levels than its operands. -/
theorem chain_nesting {level : Nat} {operand : Parse Expr}
    (hoperand : Gives operand (·.nesting ≤ n)) (rs : List Lexed) :
    ∀ left : Expr, left.nesting ≤ n → Gives (chain level operand rs left) (·.nesting ≤ n) := by
  induction rs with
  | nil =>
    intro left hleft
    unfold chain
    exact gives_pure hleft
  | cons r rs ih =>
    intro left hleft
    unfold chain
    refine gives_then fun t => ?_
    cases binaryOp? level t with
    | none => exact gives_pure hleft
    | some op =>
      -- Neither operand is one level further in, so the row needs what the greater of them does.
      refine gives_then fun _ => gives_bind hoperand fun right hright => ih _ ?_
      rw [Expr.nesting]
      omega

omit hinner in
/-- Rows of operators of all levels, one in the other, need no more levels than their operands. -/
theorem ladder_nesting {operand : Parse Expr} (hoperand : Gives operand (·.nesting ≤ n))
    (levels : List Nat) : Gives (ladder operand levels) (·.nesting ≤ n) := by
  induction levels with
  | nil =>
    unfold ladder
    exact hoperand
  | cons level tighter ih =>
    unfold ladder
    refine gives_bind ih fun left hleft => gives_then fun rs => ?_
    exact chain_nesting ih rs left hleft

/-- The value of an assignment is one level further in. -/
theorem assignment_nesting (target : String) :
    Gives (assignment inner target) (·.nesting ≤ n) := by
  unfold assignment
  refine gives_bind hinner.expression fun value hvalue => gives_pure ?_
  rw [Expr.nesting]
  exact hvalue

/-- An expression within its level needs no more than the levels that are left. -/
theorem expressionBody_nesting : Gives (expressionBody inner) (·.nesting ≤ n) := by
  unfold expressionBody
  refine gives_then fun t => gives_ite ?_ ?_
  · refine gives_then fun _ => gives_then fun target => gives_then fun _ => ?_
    exact assignment_nesting hinner target
  · refine gives_bind (ladder_nesting (cast_nesting hinner) _) fun left hleft => ?_
    refine gives_then fun t => gives_ite ?_ (gives_pure hleft)
    split
    · exact gives_then fun _ => assignment_nesting hinner _
    · exact gives_fail _

/-! ## Statements -/

/-- A condition is one level further in. -/
theorem condition_nesting (k : Keyword) : Gives (condition inner k) (·.nesting < n) := by
  unfold condition
  refine gives_then fun _ => gives_then fun t => gives_ite ?_ (gives_fail _)
  exact gives_bind hinner.expression fun e he => gives_then fun _ => gives_pure he

/-- A statement needs no more than the levels that are left: what it consists of is one level
further in. -/
theorem statement_nesting : Gives (statement inner) (·.nesting ≤ n) := by
  unfold statement
  refine gives_then fun t => ?_
  split
  · refine gives_then fun _ => gives_then fun _ => gives_then fun _ => gives_then fun _ => ?_
    refine gives_bind hinner.expression fun value hvalue => gives_then fun _ => gives_pure ?_
    rw [Stmt.nesting]
    exact hvalue
  · refine gives_then fun _ => gives_then fun _ => gives_then fun _ => ?_
    refine gives_bind hinner.block fun body hbody => gives_pure ?_
    rw [Stmt.nesting]
    exact hbody
  · refine gives_then fun _ => gives_bind (condition_nesting hinner _) fun test htest => ?_
    refine gives_bind hinner.block fun body hbody => gives_pure ?_
    rw [Stmt.nesting]
    omega
  · refine gives_bind hinner.conditional fun c hc => gives_pure ?_
    rw [Stmt.nesting]
    exact hc
  · refine gives_then fun _ => gives_then fun t => gives_ite ?_ ?_
    · -- A return without a value needs no level.
      refine gives_bind (gives_pure rfl) fun value hvalue => gives_then fun _ => gives_pure ?_
      rw [← hvalue, Stmt.nesting]
      exact Nat.zero_le n
    · refine gives_bind (gives_some hinner.expression) fun value hvalue => ?_
      obtain ⟨e, rfl, he⟩ := hvalue
      refine gives_then fun _ => gives_pure ?_
      rw [Stmt.nesting]
      exact he
  · refine gives_then fun _ => gives_pure ?_
    rw [Stmt.nesting]
    exact Nat.zero_le n
  · -- What is no other statement is an expression, one level further in.
    refine gives_bind hinner.expression fun e he => gives_then fun _ => gives_pure ?_
    rw [Stmt.nesting]
    exact he

/-- The statements of a block need no more than the levels that are left. -/
theorem blockStatements_nesting (rs : List Lexed) :
    Gives (blockStatements inner rs) (Stmt.listNesting · ≤ n) := by
  induction rs with
  | nil =>
    unfold blockStatements
    exact gives_unexpected _
  | cons r rs ih =>
    unfold blockStatements
    refine gives_then fun t => ?_
    split
    · refine gives_then fun _ => gives_pure ?_
      rw [Stmt.listNesting]
      exact Nat.zero_le n
    · exact gives_unexpected _
    · refine gives_bind (statement_nesting hinner) fun st hst => ?_
      refine gives_bind ih fun ss hss => gives_pure ?_
      rw [Stmt.listNesting]
      omega

/-- A block within its level needs no more than the levels that are left. -/
theorem blockBody_nesting : Gives (blockBody inner) (Stmt.listNesting · ≤ n) := by
  unfold blockBody
  exact gives_then fun _ => gives_then fun rs => blockStatements_nesting hinner rs

/-- What follows a conditional needs no more than the levels that are left. -/
theorem alternative_nesting : Gives (alternative inner) (·.nesting ≤ n) := by
  unfold alternative
  refine gives_then fun t => gives_ite ?_ (gives_pure ?_)
  · refine gives_then fun _ => gives_then fun t => ?_
    split
    · refine gives_bind hinner.conditional fun c hc => gives_pure ?_
      rw [Alternative.nesting]
      exact hc
    · refine gives_bind hinner.block fun body hbody => gives_pure ?_
      rw [Alternative.nesting]
      exact hbody
    · exact gives_unexpected _
  · rw [Alternative.nesting]
    exact Nat.zero_le n

/-- A conditional within its level needs no more than the levels that are left. -/
theorem conditionalBody_nesting : Gives (conditionalBody inner) (·.nesting ≤ n) := by
  unfold conditionalBody
  refine gives_then fun _ => gives_bind (condition_nesting hinner _) fun test htest => ?_
  refine gives_bind hinner.block fun body hbody => ?_
  refine gives_bind (alternative_nesting hinner) fun otherwise hotherwise => gives_pure ?_
  rw [Conditional.nesting]
  omega

/-- Statements up to the end of the source open no level of their own. -/
theorem topStatements_nesting (rs : List Lexed) :
    Gives (topStatements inner rs) (Stmt.listNesting · ≤ n) := by
  induction rs with
  | nil =>
    unfold topStatements
    refine gives_pure ?_
    rw [Stmt.listNesting]
    exact Nat.zero_le n
  | cons r rs ih =>
    unfold topStatements
    refine gives_then fun t => gives_ite (gives_pure ?_) ?_
    · rw [Stmt.listNesting]
      exact Nat.zero_le n
    · refine gives_bind (statement_nesting hinner) fun st hst => ?_
      refine gives_bind ih fun ss hss => gives_pure ?_
      rw [Stmt.listNesting]
      omega

end Level

/-! ## Levels and programs -/

/-- The parsers that may open `n` levels yield trees that need no more. -/
theorem levels_within (max n : Nat) :
    Nested.Within ⟨expression max n, block max n, conditional max n⟩ n := by
  induction n with
  | zero =>
    -- No level may be opened: the parsers only fail.
    exact ⟨gives_fail _, gives_fail _, gives_fail _⟩
  | succ n ih =>
    exact ⟨(expressionBody_nesting ih).mono fun _ => Nat.lt_succ_of_le,
      (blockBody_nesting ih).mono fun _ => Nat.lt_succ_of_le,
      (conditionalBody_nesting ih).mono fun _ => Nat.lt_succ_of_le⟩

/-- A program that is parsed keeps the limit on nesting. -/
theorem program_nesting (max : Nat) : Gives (program max) (·.nesting ≤ max) := by
  unfold program
  refine gives_then fun rs => ?_
  exact gives_bind (topStatements_nesting (levels_within max max) rs) fun ss hss => gives_pure hss

end Brisk.Parse

namespace Brisk.Program

/-- A source is only parsed to a program that keeps the limit on nesting. -/
theorem nesting_le_of_parse {limits : Limits} {src : Source} {p : Program}
    (h : parse limits src = .ok p) : p.nesting ≤ limits.nesting := by
  obtain ⟨first, src₁, s', -, hprogram⟩ := parse_eq_ok_iff.mp h
  exact Parse.program_nesting limits.nesting _ p s' hprogram

end Brisk.Program
