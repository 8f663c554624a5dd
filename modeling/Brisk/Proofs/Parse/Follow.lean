import Brisk.Proofs.Parse.Reads

/-!
# First and following tokens

One token decides what a parser does next. A tree starts with a token that its parser expects
(`first_token`, `statement_first_token`), and it is followed by one that does not go on with it:
what may follow an operand of a level is neither an operator of that level or a tighter one, nor the
start of a cast or of arguments (`EndsOperand`).
-/

namespace Brisk.Parse

variable {s s' : State}

/-! ## First tokens -/

/-- Binary operators have levels from one on. -/
theorem binaryOp_one_le_level (op : BinaryOp) : 1 ≤ op.level := by cases op <;> decide

/-- Binary operators have seven levels. -/
theorem binaryOp_level_le (op : BinaryOp) : op.level ≤ 7 := by cases op <;> decide

/-- Casts and everything that binds tighter are no binary operators. -/
theorem level_binary_lt (op : BinaryOp) (left right : Expr) :
    (Expr.binary op left right).level < 8 :=
  Nat.lt_succ_of_le (binaryOp_level_le op)

/-- Slots that start with a token are passed from where that token is looked at. -/
theorem current_eq_of_passes {t : Token} {slots : List Slot}
    (h : Passes (.token t :: slots) s s') : s.current.token = t := by
  obtain ⟨s₁, hread, -⟩ := Passes.token_iff.mp h
  exact hread.current_eq

/-- An expression starts with a token with which an expression can start. Only assignments start
with a dollar sign, and what needs no operator does not start with one. -/
theorem first_token : ∀ (e : Expr) {s s' : State}, e.WellFormed → Passes e.slots s s' →
    startsExpression s.current.token = true ∧
      (1 ≤ e.level → s.current.token ≠ .symbol .dollar) ∧
      (10 ≤ e.level → unaryOp? s.current.token = none)
  | .assign target value, s, s', _, h => by
    rw [Expr.slots] at h
    refine ⟨?_, by simp [Expr.level], by simp [Expr.level]⟩
    -- The target, or a dollar sign in front of it, starts an assignment.
    rcases Passes.dollar_iff.mp h with h | ⟨s₁, hread, -⟩
    · rw [current_eq_of_passes h]
      rfl
    · rw [hread.current_eq]
      rfl
  | .binary op left right, s, s', hwf, h => by
    rw [Expr.slots] at h
    rw [Expr.WellFormed] at hwf
    obtain ⟨s₁, hleft, -⟩ := Passes.append_iff.mp h
    -- The left operand starts the row, and is tighter than an assignment.
    obtain ⟨hstarts, hdollar, -⟩ := first_token left hwf.2.2.1 hleft
    have hop := binaryOp_one_le_level op
    have hop' := binaryOp_level_le op
    refine ⟨hstarts, fun _ => hdollar (by omega), ?_⟩
    rw [Expr.level]
    intro hlevel
    omega
  | .cast operand target, s, s', hwf, h => by
    rw [Expr.slots] at h
    rw [Expr.WellFormed] at hwf
    obtain ⟨s₁, hoperand, -⟩ := Passes.append_iff.mp h
    obtain ⟨hstarts, hdollar, -⟩ := first_token operand hwf.2 hoperand
    exact ⟨hstarts, fun _ => hdollar (by omega), by simp [Expr.level]⟩
  | .unary op operand, s, s', _, h => by
    rw [Expr.slots] at h
    rw [current_eq_of_passes h]
    refine ⟨?_, ?_, by simp [Expr.level]⟩
    · cases op <;> rfl
    · cases op <;> simp [UnaryOp.symbol]
  | .call true callee arguments, s, s', _, h => by
    rw [Expr.slots] at h
    rw [current_eq_of_passes h]
    exact ⟨rfl, by simp, fun _ => rfl⟩
  | .call false callee arguments, s, s', hwf, h => by
    rw [Expr.slots] at h
    rw [Expr.WellFormed] at hwf
    obtain ⟨s₁, hcallee, -⟩ := Passes.append_iff.mp h
    obtain ⟨hstarts, hdollar, hunary⟩ := first_token callee hwf.2.1 hcallee
    -- What is called starts the call, and no sign stands in front of it.
    have hlevel := (hwf.1 rfl).level_eq
    exact ⟨hstarts, fun _ => hdollar (by omega), fun _ => hunary (by omega)⟩
  | .lambda parameters body, s, s', _, h => by
    rw [Expr.slots] at h
    rw [current_eq_of_passes h]
    exact ⟨rfl, by simp, fun _ => rfl⟩
  | .name name, s, s', _, h => by
    rw [Expr.slots] at h
    rw [current_eq_of_passes h]
    exact ⟨rfl, by simp, fun _ => rfl⟩
  | .paren inner, s, s', _, h => by
    rw [Expr.slots] at h
    rw [current_eq_of_passes h]
    exact ⟨rfl, by simp, fun _ => rfl⟩
  | .literal value, s, s', _, h => by
    rw [Expr.slots] at h
    rw [current_eq_of_passes h]
    cases value <;> exact ⟨rfl, by simp [Literal.token], fun _ => rfl⟩

/-- Whether a statement can start with a token. -/
def startsStatement : Token → Bool
  | .keyword k =>
    match k with
    | .letKey | .fnKey | .whileKey | .ifKey | .returnKey | .truth _ => true
    | .mutKey | .elseKey | .type _ => false
  | .symbol .semicolon => true
  | t => startsExpression t

/-- Every expression may be a statement. -/
theorem startsStatement_of_startsExpression {t : Token} (h : startsExpression t = true) :
    startsStatement t = true := by
  cases t with
  | symbol sym => cases sym <;> first | rfl | exact h
  | keyword k => cases k <;> first | rfl | exact h
  | endOfFile | identifier | str | int | float => exact h

/-- A statement starts with a token with which a statement can start. -/
theorem statement_first_token {st : Stmt} (hwf : st.WellFormed) (h : Passes st.slots s s') :
    startsStatement s.current.token = true := by
  cases st with
  | expression e =>
    rw [Stmt.slots] at h
    rw [Stmt.WellFormed] at hwf
    obtain ⟨s₁, he, -⟩ := Passes.append_iff.mp h
    exact startsStatement_of_startsExpression (first_token e hwf he).1
  | conditional c =>
    cases c
    rw [Stmt.slots, Conditional.slots] at h
    rw [current_eq_of_passes h]
    rfl
  | leave value =>
    cases value <;> rw [Stmt.slots] at h <;> rw [current_eq_of_passes h] <;> rfl
  | function | declare | loop | empty =>
    rw [Stmt.slots] at h
    rw [current_eq_of_passes h]
    rfl

/-! ## Following tokens -/

/-- Whether a token ends an operand of level `k` that stands in front of it. -/
structure EndsOperand (k : Nat) (t : Token) : Prop where
  no_arguments : t ≠ .symbol .leftParen
  no_cast : t ≠ .symbol .arrow
  no_operator : ∀ l, k ≤ l → binaryOp? l t = none

/-- What ends an operand ends one that binds tighter. -/
theorem EndsOperand.mono {k k' : Nat} {t : Token} (h : EndsOperand k t) (hk : k ≤ k') :
    EndsOperand k' t :=
  ⟨h.no_arguments, h.no_cast, fun l hl => h.no_operator l (Nat.le_trans hk hl)⟩

/-- A symbol between operands is the operator that it stands for, and of that operator's level
only. -/
theorem binaryOp?_symbol (op : BinaryOp) (l : Nat) :
    binaryOp? l (.symbol op.symbol) = if op.level = l then some op else none := by
  have hop : BinaryOp.ofSymbol? op.symbol = some op := by cases op <;> rfl
  unfold binaryOp?
  simp only [hop, Option.filter_some, decide_eq_true_eq]

/-- An operator ends the tighter operands in front of it. -/
theorem endsOperand_symbol (op : BinaryOp) : EndsOperand (op.level + 1) (.symbol op.symbol) := by
  refine ⟨?_, ?_, ?_⟩
  · cases op <;> simp [BinaryOp.symbol]
  · cases op <;> simp [BinaryOp.symbol]
  · intro l hl
    rw [binaryOp?_symbol, if_neg (by omega)]

/-- A token that is no operator, and starts neither arguments nor a cast, ends every operand. -/
theorem endsOperand_of_ofSymbol? {sym : Symbol} (hop : BinaryOp.ofSymbol? sym = none)
    (h₁ : sym ≠ .leftParen) (h₂ : sym ≠ .arrow) (k : Nat) : EndsOperand k (.symbol sym) := by
  refine ⟨by simp [h₁], by simp [h₂], ?_⟩
  intro l _
  unfold binaryOp?
  simp only [hop, Option.filter_none]

/-- Whether a token ends an expression that stands in front of it. -/
def EndsExpression (t : Token) : Prop := EndsOperand 1 t ∧ t ≠ .symbol .assign

/-- A closing parenthesis ends an expression. -/
theorem endsExpression_rightParen : EndsExpression (.symbol .rightParen) :=
  ⟨endsOperand_of_ofSymbol? rfl (by simp) (by simp) 1, by simp⟩

/-- A closing bracket ends an expression. -/
theorem endsExpression_rightBracket : EndsExpression (.symbol .rightBracket) :=
  ⟨endsOperand_of_ofSymbol? rfl (by simp) (by simp) 1, by simp⟩

/-- A comma ends an expression. -/
theorem endsExpression_comma : EndsExpression (.symbol .comma) :=
  ⟨endsOperand_of_ofSymbol? rfl (by simp) (by simp) 1, by simp⟩

/-- A semicolon ends an expression. -/
theorem endsExpression_semicolon : EndsExpression (.symbol .semicolon) :=
  ⟨endsOperand_of_ofSymbol? rfl (by simp) (by simp) 1, by simp⟩

end Brisk.Parse
