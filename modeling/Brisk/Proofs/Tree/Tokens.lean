import Brisk.Tree.Basic

/-!
# How trees are written as tokens

The second side of parsing. `slots` writes a tree down as the tokens that it consists of, with a
slot in front of the target of each assignment, where a dollar sign may stand. `Slot.Filled` says
that a list of tokens is one of these writings, and `tokens` is the one without dollar signs.

Not every tree can be written such that it reads back. `WellFormed` says which can: operands bind
tighter than their operators ask for, what is called can be called, and the parameters of a function
are distinct. `nesting` counts how many levels of expressions, blocks and conditionals are open at
once.
-/

namespace Brisk

/-- A place in the writing of a tree. -/
inductive Slot where
  /-- A token stands here. -/
  | token (t : Token)
  /-- A dollar sign may stand here. -/
  | dollar
  deriving DecidableEq

namespace Slot

/-- The tokens in slots of which none is filled with a dollar sign. -/
def tokens : List Slot → List Token
  | [] => []
  | .token t :: slots => t :: tokens slots
  | .dollar :: slots => tokens slots

/-- Tokens fill slots when they stand where they should, with dollar signs in any of the places for
them. -/
inductive Filled : List Slot → List Token → Prop where
  | nil : Filled [] []
  | token {t : Token} {slots : List Slot} {ts : List Token} (h : Filled slots ts) :
      Filled (.token t :: slots) (t :: ts)
  | blank {slots : List Slot} {ts : List Token} (h : Filled slots ts) : Filled (.dollar :: slots) ts
  | dollar {slots : List Slot} {ts : List Token} (h : Filled slots ts) :
      Filled (.dollar :: slots) (.symbol .dollar :: ts)

/-- No slots have no tokens. -/
@[simp]
theorem tokens_nil : tokens [] = [] := rfl

/-- A token has its slot. -/
@[simp]
theorem tokens_token (t : Token) (slots : List Slot) :
    tokens (.token t :: slots) = t :: tokens slots := rfl

/-- A slot for a dollar sign need not have a token. -/
@[simp]
theorem tokens_dollar (slots : List Slot) : tokens (.dollar :: slots) = tokens slots := rfl

/-- Slots and further ones have their tokens one behind the other. -/
@[simp]
theorem tokens_append (slots slots' : List Slot) :
    tokens (slots ++ slots') = tokens slots ++ tokens slots' := by
  induction slots with
  | nil => rfl
  | cons slot slots ih => cases slot <;> simp [ih]

namespace Filled

variable {slots slots' : List Slot} {ts ts' : List Token}

/-- Slots and further ones are filled one behind the other. -/
theorem append (h : Filled slots ts) (h' : Filled slots' ts') :
    Filled (slots ++ slots') (ts ++ ts') := by
  induction h with
  | nil => exact h'
  | token _ ih => exact .token ih
  | blank _ ih => exact .blank ih
  | dollar _ ih => exact .dollar ih

/-- What fills slots falls apart where the slots do. -/
theorem append_iff : Filled (slots ++ slots') ts ↔
    ∃ us us', ts = us ++ us' ∧ Filled slots us ∧ Filled slots' us' := by
  constructor
  · intro h
    -- The slots in front take what they are filled with, one after the other.
    induction slots generalizing ts with
    | nil => exact ⟨[], ts, rfl, .nil, h⟩
    | cons slot slots ih =>
      cases h with
      | @token t _ _ h =>
        obtain ⟨us, us', rfl, h₁, h₂⟩ := ih h
        exact ⟨t :: us, us', rfl, .token h₁, h₂⟩
      | blank h =>
        obtain ⟨us, us', rfl, h₁, h₂⟩ := ih h
        exact ⟨us, us', rfl, .blank h₁, h₂⟩
      | dollar h =>
        obtain ⟨us, us', rfl, h₁, h₂⟩ := ih h
        exact ⟨.symbol .dollar :: us, us', rfl, .dollar h₁, h₂⟩
  · rintro ⟨us, us', rfl, h₁, h₂⟩
    exact h₁.append h₂

/-- Slots without dollar signs are filled by their tokens. -/
theorem of_tokens (slots : List Slot) : Filled slots (tokens slots) := by
  induction slots with
  | nil => exact .nil
  | cons slot slots ih =>
    cases slot with
    | token t => exact .token ih
    | dollar => exact .blank ih

/-- Dollar signs only add to the tokens. -/
theorem length_tokens_le (h : Filled slots ts) : (tokens slots).length ≤ ts.length := by
  induction h with
  | nil => exact Nat.le_refl 0
  | token _ ih => exact Nat.succ_le_succ ih
  | blank _ ih => exact ih
  | dollar _ ih => exact Nat.le_succ_of_le ih

end Filled

/-- A symbol in its place. -/
abbrev symbol (s : Symbol) : Slot := .token (.symbol s)

/-- A keyword in its place. -/
abbrev keyword (k : Keyword) : Slot := .token (.keyword k)

/-- A name in its place. -/
abbrev name (x : String) : Slot := .token (.identifier x)

end Slot

/-- The token that a literal is. -/
def Literal.token : Literal → Token
  | int n => .int n
  | float x => .float x
  | str s => .str s
  | bool b => .keyword (.truth b)

/-- How a parameter is written. -/
def Parameter.slots (p : Parameter) : List Slot :=
  (if p.mutable then [.keyword .mutKey] else []) ++ [.name p.name]

namespace Parameter

/-- How parameters are written between their parentheses. -/
def listSlots : List Parameter → List Slot
  | [] => []
  | [p] => p.slots
  | p :: p' :: ps => p.slots ++ .symbol .comma :: listSlots (p' :: ps)

/-- How parameters are written. -/
def allSlots (ps : List Parameter) : List Slot :=
  .symbol .leftParen :: (listSlots ps ++ [.symbol .rightParen])

/-- Whether no two parameters have the same name. -/
def Distinct (ps : List Parameter) : Prop := (ps.map (·.name)).Nodup

instance (ps : List Parameter) : Decidable (Distinct ps) :=
  inferInstanceAs (Decidable (ps.map (·.name)).Nodup)

end Parameter

/-! ## Tokens of trees -/

mutual

/-- How an expression is written. -/
def Expr.slots : Expr → List Slot
  | .assign target value => .dollar :: .name target :: .symbol .assign :: value.slots
  | .binary op left right => left.slots ++ .symbol op.symbol :: right.slots
  | .cast operand target => operand.slots ++ [.symbol .arrow, .keyword (.type target)]
  | .unary op operand => .symbol op.symbol :: operand.slots
  | .call true callee arguments =>
    .symbol .leftBracket :: (callee.slots ++ .symbol .rightBracket ::
      .symbol .leftParen :: (Expr.listSlots arguments ++ [.symbol .rightParen]))
  | .call false callee arguments =>
    callee.slots ++ .symbol .leftParen :: (Expr.listSlots arguments ++ [.symbol .rightParen])
  | .lambda parameters body =>
    .symbol .hash :: (Parameter.allSlots parameters ++
      .symbol .leftCurly :: (Stmt.listSlots body ++ [.symbol .rightCurly]))
  | .name name => [.name name]
  | .paren inner => .symbol .leftParen :: (inner.slots ++ [.symbol .rightParen])
  | .literal value => [.token value.token]

/-- How arguments are written between their parentheses. -/
def Expr.listSlots : List Expr → List Slot
  | [] => []
  | [e] => e.slots
  | e :: e' :: es => e.slots ++ .symbol .comma :: Expr.listSlots (e' :: es)

/-- How a statement is written. -/
def Stmt.slots : Stmt → List Slot
  | .function name parameters body =>
    .keyword .fnKey :: .name name :: (Parameter.allSlots parameters ++
      .symbol .leftCurly :: (Stmt.listSlots body ++ [.symbol .rightCurly]))
  | .declare name mutable value =>
    .keyword .letKey :: ((if mutable then [.keyword .mutKey] else []) ++
      .name name :: .symbol .assign :: (value.slots ++ [.symbol .semicolon]))
  | .loop condition body =>
    .keyword .whileKey :: .symbol .leftParen :: (condition.slots ++ .symbol .rightParen ::
      .symbol .leftCurly :: (Stmt.listSlots body ++ [.symbol .rightCurly]))
  | .conditional c => c.slots
  | .leave none => [.keyword .returnKey, .symbol .semicolon]
  | .leave (some value) => .keyword .returnKey :: (value.slots ++ [.symbol .semicolon])
  | .expression e => e.slots ++ [.symbol .semicolon]
  | .empty => [.symbol .semicolon]

/-- How statements are written one after another. -/
def Stmt.listSlots : List Stmt → List Slot
  | [] => []
  | s :: ss => s.slots ++ Stmt.listSlots ss

/-- How a conditional is written. -/
def Conditional.slots : Conditional → List Slot
  | .mk condition body otherwise =>
    .keyword .ifKey :: .symbol .leftParen :: (condition.slots ++ .symbol .rightParen ::
      .symbol .leftCurly :: (Stmt.listSlots body ++ .symbol .rightCurly :: otherwise.slots))

/-- How it is written what is executed when a condition does not hold. -/
def Alternative.slots : Alternative → List Slot
  | .nothing => []
  | .block body =>
    .keyword .elseKey :: .symbol .leftCurly :: (Stmt.listSlots body ++ [.symbol .rightCurly])
  | .chain c => .keyword .elseKey :: c.slots

end

/-- Further parameters follow a comma. -/
theorem Parameter.listSlots_cons (p : Parameter) {ps : List Parameter} (h : ps ≠ []) :
    listSlots (p :: ps) = p.slots ++ .symbol .comma :: listSlots ps := by
  cases ps with
  | nil => exact absurd rfl h
  | cons p' ps => rw [listSlots]

/-- Further arguments follow a comma. -/
theorem Expr.listSlots_cons (e : Expr) {es : List Expr} (h : es ≠ []) :
    listSlots (e :: es) = e.slots ++ .symbol .comma :: listSlots es := by
  cases es with
  | nil => exact absurd rfl h
  | cons e' es => rw [listSlots]

/-- How statements are written in braces. -/
def Stmt.blockSlots (body : List Stmt) : List Slot :=
  .symbol .leftCurly :: (Stmt.listSlots body ++ [.symbol .rightCurly])

/-- How arguments are written. -/
def Expr.argumentSlots (arguments : List Expr) : List Slot :=
  .symbol .leftParen :: (Expr.listSlots arguments ++ [.symbol .rightParen])

/-- How a program is written. -/
def Program.slots (p : Program) : List Slot := Stmt.listSlots p.statements

/-- The tokens of a program, without dollar signs. -/
def Program.tokens (p : Program) : List Token := Slot.tokens p.slots

/-- No parameter is written as nothing. -/
theorem Parameter.tokens_slots_ne_nil (p : Parameter) : Slot.tokens p.slots ≠ [] := by
  unfold Parameter.slots
  simp

/-- No expression is written as nothing: each node has a token of its own. -/
theorem Expr.tokens_slots_ne_nil (e : Expr) : Slot.tokens e.slots ≠ [] := by
  cases e with
  | call traced callee arguments => cases traced <;> simp [Expr.slots]
  | assign | binary | cast | unary | lambda | name | paren | literal => simp [Expr.slots]

/-- No statement is written as nothing. -/
theorem Stmt.tokens_slots_ne_nil (s : Stmt) : Slot.tokens s.slots ≠ [] := by
  cases s with
  | conditional c =>
    cases c
    simp [Stmt.slots, Conditional.slots]
  | leave value => cases value <;> simp [Stmt.slots]
  | function | declare | loop | expression | empty => simp [Stmt.slots]

/-! ## Well-formed trees -/

namespace Expr

/-- How tightly an expression binds as an operand. Assignments bind loosest, then the binary
operators by their levels, casts, operators in front of an operand, and what needs no operator. -/
def level : Expr → Nat
  | assign _ _ => 0
  | binary op _ _ => op.level
  | cast _ _ => 8
  | unary _ _ => 9
  | call _ _ _ | lambda _ _ | name _ | paren _ | literal _ => 10

/-- Whether arguments may follow an expression directly. -/
def Callable : Expr → Prop
  | name _ | paren _ | lambda _ _ => True
  | assign _ _ | binary _ _ _ | cast _ _ | unary _ _ | call _ _ _ | literal _ => False

/-- What can be called binds tightest. -/
theorem Callable.level_eq {e : Expr} (h : e.Callable) : e.level = 10 := by
  cases e with
  | name | paren | lambda => rfl
  | assign | binary | cast | unary | call | literal => exact absurd h (by simp [Callable])

end Expr

mutual

/-- Whether the parts of an expression stand where the grammar allows them. -/
def Expr.WellFormed : Expr → Prop
  | .assign _ value => value.WellFormed
  | .binary op left right =>
    op.level ≤ left.level ∧ op.level < right.level ∧ left.WellFormed ∧ right.WellFormed
  | .cast operand _ => 9 ≤ operand.level ∧ operand.WellFormed
  | .unary _ operand => 10 ≤ operand.level ∧ operand.WellFormed
  | .call traced callee arguments =>
    (traced = false → callee.Callable) ∧ callee.WellFormed ∧ Expr.AllWellFormed arguments
  | .lambda parameters body => Parameter.Distinct parameters ∧ Stmt.AllWellFormed body
  | .name _ => True
  | .paren inner => inner.WellFormed
  | .literal _ => True

/-- Whether all of some expressions are well-formed. -/
def Expr.AllWellFormed : List Expr → Prop
  | [] => True
  | e :: es => e.WellFormed ∧ Expr.AllWellFormed es

/-- Whether the parts of a statement stand where the grammar allows them. -/
def Stmt.WellFormed : Stmt → Prop
  | .function _ parameters body => Parameter.Distinct parameters ∧ Stmt.AllWellFormed body
  | .declare _ _ value => value.WellFormed
  | .loop condition body => condition.WellFormed ∧ Stmt.AllWellFormed body
  | .conditional c => c.WellFormed
  | .leave none => True
  | .leave (some value) => value.WellFormed
  | .expression e => e.WellFormed
  | .empty => True

/-- Whether all of some statements are well-formed. -/
def Stmt.AllWellFormed : List Stmt → Prop
  | [] => True
  | s :: ss => s.WellFormed ∧ Stmt.AllWellFormed ss

/-- Whether the parts of a conditional stand where the grammar allows them. -/
def Conditional.WellFormed : Conditional → Prop
  | .mk condition body otherwise =>
    condition.WellFormed ∧ Stmt.AllWellFormed body ∧ otherwise.WellFormed

/-- Whether the parts of what is executed otherwise stand where the grammar allows them. -/
def Alternative.WellFormed : Alternative → Prop
  | .nothing => True
  | .block body => Stmt.AllWellFormed body
  | .chain c => c.WellFormed

end

/-- Whether the parts of a program stand where the grammar allows them. -/
def Program.WellFormed (p : Program) : Prop := Stmt.AllWellFormed p.statements

/-! ## Levels of nesting -/

mutual

/-- The levels that are open at once within an expression, its own not counted. -/
def Expr.nesting : Expr → Nat
  | .assign _ value => value.nesting + 1
  | .binary _ left right => max left.nesting right.nesting
  | .cast operand _ => operand.nesting
  | .unary _ operand => operand.nesting
  | .call true callee arguments => max (callee.nesting + 1) (Expr.listNesting arguments)
  | .call false callee arguments => max callee.nesting (Expr.listNesting arguments)
  | .lambda _ body => Stmt.listNesting body + 1
  | .name _ => 0
  | .paren inner => inner.nesting + 1
  | .literal _ => 0

/-- The levels that are open at once within arguments, each of which opens one. -/
def Expr.listNesting : List Expr → Nat
  | [] => 0
  | e :: es => max (e.nesting + 1) (Expr.listNesting es)

/-- The levels that are open at once within a statement. -/
def Stmt.nesting : Stmt → Nat
  | .function _ _ body => Stmt.listNesting body + 1
  | .declare _ _ value => value.nesting + 1
  | .loop condition body => max (condition.nesting + 1) (Stmt.listNesting body + 1)
  | .conditional c => c.nesting + 1
  | .leave none => 0
  | .leave (some value) => value.nesting + 1
  | .expression e => e.nesting + 1
  | .empty => 0

/-- The levels that are open at once within statements that follow one another. -/
def Stmt.listNesting : List Stmt → Nat
  | [] => 0
  | s :: ss => max s.nesting (Stmt.listNesting ss)

/-- The levels that are open at once within a conditional, its own not counted. -/
def Conditional.nesting : Conditional → Nat
  | .mk condition body otherwise =>
    max (condition.nesting + 1) (max (Stmt.listNesting body + 1) otherwise.nesting)

/-- The levels that are open at once within what is executed otherwise. -/
def Alternative.nesting : Alternative → Nat
  | .nothing => 0
  | .block body => Stmt.listNesting body + 1
  | .chain c => c.nesting + 1

end

/-- The levels of expressions, blocks and conditionals that are open at once within a program. -/
def Program.nesting (p : Program) : Nat := Stmt.listNesting p.statements

end Brisk
