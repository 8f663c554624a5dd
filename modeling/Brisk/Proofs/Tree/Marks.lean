import Brisk.Proofs.Tree.Tokens

/-!
# Where trees open levels of nesting

`marks` writes a tree down like `slots` does (`Stmt.slots_marks` and its companions), and marks the
places at which levels of nesting are opened. An expression opens one in front of its first token
where it is a statement, the value of a declaration, a return or an assignment, a condition, an
argument, or stands in parentheses or brackets. A block opens one in front of its brace, and a
conditional in front of its keyword, also where it follows `else`.

The deepest level that is marked is the nesting of the tree (`Program.deepest_marks`). Operators,
casts and the other statements open none, so their parts are in the same levels as they are.
-/

namespace Brisk

/-- A place in the writing of a tree, or a level that is opened in front of the next one. -/
inductive Mark where
  | slot (s : Slot)
  | opens (level : Nat)
  deriving DecidableEq

namespace Mark

/-- The places among marks. -/
def slots : List Mark → List Slot
  | [] => []
  | .slot s :: marks => s :: slots marks
  | .opens _ :: marks => slots marks

/-- The deepest level that is opened among marks. -/
def deepest : List Mark → Nat
  | [] => 0
  | .slot _ :: marks => deepest marks
  | .opens level :: marks => max level (deepest marks)

/-- No marks have no slots. -/
@[simp]
theorem slots_nil : slots [] = [] := rfl

/-- A slot is a mark. -/
@[simp]
theorem slots_slot (s : Slot) (marks : List Mark) : slots (.slot s :: marks) = s :: slots marks :=
  rfl

/-- Where a level is opened there is no slot. -/
@[simp]
theorem slots_opens (level : Nat) (marks : List Mark) :
    slots (.opens level :: marks) = slots marks := rfl

/-- Marks and further ones have their slots one behind the other. -/
@[simp]
theorem slots_append (marks marks' : List Mark) :
    slots (marks ++ marks') = slots marks ++ slots marks' := by
  induction marks with
  | nil => rfl
  | cons m marks ih => cases m <;> simp [ih]

/-- Without marks no level is opened. -/
@[simp]
theorem deepest_nil : deepest [] = 0 := rfl

/-- A slot opens no level. -/
@[simp]
theorem deepest_slot (s : Slot) (marks : List Mark) :
    deepest (.slot s :: marks) = deepest marks := rfl

/-- The deepest level is the one that is opened or a deeper one behind it. -/
@[simp]
theorem deepest_opens (level : Nat) (marks : List Mark) :
    deepest (.opens level :: marks) = max level (deepest marks) := rfl

/-- The deepest level of marks and further ones is the deeper one of both. -/
@[simp]
theorem deepest_append (marks marks' : List Mark) :
    deepest (marks ++ marks') = max (deepest marks) (deepest marks') := by
  induction marks with
  | nil => simp
  | cons m marks ih => cases m <;> simp [ih, Nat.max_assoc]

/-- Places at which no level is opened. -/
def plain (places : List Slot) : List Mark := places.map .slot

/-- Slots are marked as such. -/
@[simp]
theorem slots_plain (places : List Slot) : slots (plain places) = places := by
  induction places with
  | nil => rfl
  | cons s places ih => exact congrArg (s :: ·) ih

/-- Slots that are marked as such open no levels. -/
@[simp]
theorem deepest_plain (places : List Slot) : deepest (plain places) = 0 := by
  induction places with
  | nil => rfl
  | cons s places ih => exact ih

/-- A token in its place. -/
abbrev token (t : Token) : Mark := .slot (.token t)

/-- A symbol in its place. -/
abbrev symbol (s : Symbol) : Mark := .slot (.symbol s)

/-- A keyword in its place. -/
abbrev keyword (k : Keyword) : Mark := .slot (.keyword k)

/-- A name in its place. -/
abbrev name (x : String) : Mark := .slot (.name x)

end Mark

/-! ## Marks of trees -/

mutual

/-- How an expression is written within `d` levels, its own included. -/
def Expr.marks (d : Nat) : Expr → List Mark
  | .assign target value =>
    .slot .dollar :: .name target :: .symbol .assign :: .opens (d + 1) :: value.marks (d + 1)
  | .binary op left right => left.marks d ++ .symbol op.symbol :: right.marks d
  | .cast operand target => operand.marks d ++ [.symbol .arrow, .keyword (.type target)]
  | .unary op operand => .symbol op.symbol :: operand.marks d
  | .call true callee arguments =>
    .symbol .leftBracket :: .opens (d + 1) :: (callee.marks (d + 1) ++ .symbol .rightBracket ::
      .symbol .leftParen :: (Expr.listMarks d arguments ++ [.symbol .rightParen]))
  | .call false callee arguments =>
    callee.marks d ++ .symbol .leftParen :: (Expr.listMarks d arguments ++ [.symbol .rightParen])
  | .lambda parameters body =>
    .symbol .hash :: (Mark.plain (Parameter.allSlots parameters) ++
      .opens (d + 1) :: .symbol .leftCurly ::
        (Stmt.listMarks (d + 1) body ++ [.symbol .rightCurly]))
  | .name name => [.name name]
  | .paren inner =>
    .symbol .leftParen :: .opens (d + 1) :: (inner.marks (d + 1) ++ [.symbol .rightParen])
  | .literal value => [.token value.token]

/-- How arguments are written between their parentheses within `d` levels. -/
def Expr.listMarks (d : Nat) : List Expr → List Mark
  | [] => []
  | [e] => .opens (d + 1) :: e.marks (d + 1)
  | e :: e' :: es =>
    .opens (d + 1) :: (e.marks (d + 1) ++ .symbol .comma :: Expr.listMarks d (e' :: es))

/-- How a statement is written within `d` levels. -/
def Stmt.marks (d : Nat) : Stmt → List Mark
  | .function name parameters body =>
    .keyword .fnKey :: .name name :: (Mark.plain (Parameter.allSlots parameters) ++
      .opens (d + 1) :: .symbol .leftCurly ::
        (Stmt.listMarks (d + 1) body ++ [.symbol .rightCurly]))
  | .declare name mutable value =>
    .keyword .letKey :: (Mark.plain (if mutable then [.keyword .mutKey] else []) ++
      .name name :: .symbol .assign :: .opens (d + 1) ::
        (value.marks (d + 1) ++ [.symbol .semicolon]))
  | .loop condition body =>
    .keyword .whileKey :: .symbol .leftParen :: .opens (d + 1) ::
      (condition.marks (d + 1) ++ .symbol .rightParen :: .opens (d + 1) :: .symbol .leftCurly ::
        (Stmt.listMarks (d + 1) body ++ [.symbol .rightCurly]))
  | .conditional c => .opens (d + 1) :: c.marks (d + 1)
  | .leave none => [.keyword .returnKey, .symbol .semicolon]
  | .leave (some value) =>
    .keyword .returnKey :: .opens (d + 1) :: (value.marks (d + 1) ++ [.symbol .semicolon])
  | .expression e => .opens (d + 1) :: (e.marks (d + 1) ++ [.symbol .semicolon])
  | .empty => [.symbol .semicolon]

/-- How statements are written one after another within `d` levels. -/
def Stmt.listMarks (d : Nat) : List Stmt → List Mark
  | [] => []
  | s :: ss => s.marks d ++ Stmt.listMarks d ss

/-- How a conditional is written within `d` levels, its own included. -/
def Conditional.marks (d : Nat) : Conditional → List Mark
  | .mk condition body otherwise =>
    .keyword .ifKey :: .symbol .leftParen :: .opens (d + 1) ::
      (condition.marks (d + 1) ++ .symbol .rightParen :: .opens (d + 1) :: .symbol .leftCurly ::
        (Stmt.listMarks (d + 1) body ++ .symbol .rightCurly :: otherwise.marks d))

/-- How it is written within `d` levels what is executed when a condition does not hold. -/
def Alternative.marks (d : Nat) : Alternative → List Mark
  | .nothing => []
  | .block body =>
    .keyword .elseKey :: .opens (d + 1) :: .symbol .leftCurly ::
      (Stmt.listMarks (d + 1) body ++ [.symbol .rightCurly])
  | .chain c => .keyword .elseKey :: .opens (d + 1) :: c.marks (d + 1)

end

/-- Further arguments follow a comma. -/
theorem Expr.listMarks_cons (d : Nat) (e : Expr) {es : List Expr} (h : es ≠ []) :
    listMarks d (e :: es) =
      .opens (d + 1) :: (e.marks (d + 1) ++ .symbol .comma :: listMarks d es) := by
  cases es with
  | nil => exact absurd rfl h
  | cons e' es => rw [listMarks]

/-- How statements are written in braces within `d` levels, that of the block included. -/
def Stmt.blockMarks (d : Nat) (body : List Stmt) : List Mark :=
  .symbol .leftCurly :: (Stmt.listMarks d body ++ [.symbol .rightCurly])

/-- How arguments are written within `d` levels. -/
def Expr.argumentMarks (d : Nat) (arguments : List Expr) : List Mark :=
  .symbol .leftParen :: (Expr.listMarks d arguments ++ [.symbol .rightParen])

/-- How a program is written, with the levels that are opened in it. -/
def Program.marks (p : Program) : List Mark := Stmt.listMarks 0 p.statements

/-! ## Marks and slots -/

mutual

/-- The marks of an expression are at its slots. -/
theorem Expr.slots_marks (d : Nat) : ∀ e : Expr, Mark.slots (e.marks d) = e.slots
  | .assign target value => by simp [Expr.marks, Expr.slots, value.slots_marks (d + 1)]
  | .binary op left right => by
    simp [Expr.marks, Expr.slots, left.slots_marks d, right.slots_marks d]
  | .cast operand target => by simp [Expr.marks, Expr.slots, operand.slots_marks d]
  | .unary op operand => by simp [Expr.marks, Expr.slots, operand.slots_marks d]
  | .call true callee arguments => by
    simp [Expr.marks, Expr.slots, callee.slots_marks (d + 1), Expr.slots_listMarks d arguments]
  | .call false callee arguments => by
    simp [Expr.marks, Expr.slots, callee.slots_marks d, Expr.slots_listMarks d arguments]
  | .lambda parameters body => by simp [Expr.marks, Expr.slots, Stmt.slots_listMarks (d + 1) body]
  | .name name => rfl
  | .paren inner => by simp [Expr.marks, Expr.slots, inner.slots_marks (d + 1)]
  | .literal value => rfl

/-- The marks of arguments are at their slots. -/
theorem Expr.slots_listMarks (d : Nat) : ∀ es : List Expr,
    Mark.slots (Expr.listMarks d es) = Expr.listSlots es
  | [] => rfl
  | [e] => by simp [Expr.listMarks, Expr.listSlots, e.slots_marks (d + 1)]
  | e :: e' :: es => by
    simp [Expr.listMarks, Expr.listSlots, e.slots_marks (d + 1), Expr.slots_listMarks d (e' :: es)]

/-- The marks of a statement are at its slots. -/
theorem Stmt.slots_marks (d : Nat) : ∀ s : Stmt, Mark.slots (s.marks d) = s.slots
  | .function name parameters body => by
    simp [Stmt.marks, Stmt.slots, Stmt.slots_listMarks (d + 1) body]
  | .declare name mutable value => by simp [Stmt.marks, Stmt.slots, value.slots_marks (d + 1)]
  | .loop condition body => by
    simp [Stmt.marks, Stmt.slots, condition.slots_marks (d + 1), Stmt.slots_listMarks (d + 1) body]
  | .conditional c => by simp [Stmt.marks, Stmt.slots, c.slots_marks (d + 1)]
  | .leave none => rfl
  | .leave (some value) => by simp [Stmt.marks, Stmt.slots, value.slots_marks (d + 1)]
  | .expression e => by simp [Stmt.marks, Stmt.slots, e.slots_marks (d + 1)]
  | .empty => rfl

/-- The marks of a list of statements are at its slots. -/
theorem Stmt.slots_listMarks (d : Nat) : ∀ ss : List Stmt,
    Mark.slots (Stmt.listMarks d ss) = Stmt.listSlots ss
  | [] => rfl
  | s :: ss => by simp [Stmt.listMarks, Stmt.listSlots, s.slots_marks d, Stmt.slots_listMarks d ss]

/-- The marks of a conditional are at its slots. -/
theorem Conditional.slots_marks (d : Nat) : ∀ c : Conditional, Mark.slots (c.marks d) = c.slots
  | .mk condition body otherwise => by
    simp [Conditional.marks, Conditional.slots, condition.slots_marks (d + 1),
      Stmt.slots_listMarks (d + 1) body, otherwise.slots_marks d]

/-- The marks of what is executed otherwise are at its slots. -/
theorem Alternative.slots_marks (d : Nat) : ∀ a : Alternative, Mark.slots (a.marks d) = a.slots
  | .nothing => rfl
  | .block body => by simp [Alternative.marks, Alternative.slots, Stmt.slots_listMarks (d + 1) body]
  | .chain c => by simp [Alternative.marks, Alternative.slots, c.slots_marks (d + 1)]

end

/-- The marks of a block are at its slots. -/
theorem Stmt.slots_blockMarks (d : Nat) (body : List Stmt) :
    Mark.slots (blockMarks d body) = blockSlots body := by
  simp [blockMarks, blockSlots, slots_listMarks d body]

/-! ## Marks and nesting -/

mutual

/-- Within `d` levels, those that are open at once in an expression lead to the deepest one. -/
theorem Expr.deepest_marks (d : Nat) : ∀ e : Expr,
    max d (Mark.deepest (e.marks d)) = d + e.nesting
  | .assign target value => by
    -- The value is one level further in.
    have hvalue := value.deepest_marks (d + 1)
    simp only [Expr.marks, Expr.nesting, Mark.deepest_slot, Mark.deepest_opens]
    omega
  | .binary op left right => by
    -- The operands of an operator open no level: they are on the one that it stands on.
    have hleft := left.deepest_marks d
    have hright := right.deepest_marks d
    simp only [Expr.marks, Expr.nesting, Mark.deepest_append, Mark.deepest_slot]
    omega
  | .cast operand target => by
    have hoperand := operand.deepest_marks d
    simp only [Expr.marks, Expr.nesting, Mark.deepest_append, Mark.deepest_slot, Mark.deepest_nil]
    omega
  | .unary op operand => by
    -- What stands behind a sign opens no level.
    have hoperand := operand.deepest_marks d
    simp only [Expr.marks, Expr.nesting, Mark.deepest_slot]
    omega
  | .call true callee arguments => by
    -- The callee of a traced call is one level further in, and that of a plain one is not.
    have hcallee := callee.deepest_marks (d + 1)
    have harguments := Expr.deepest_listMarks d arguments
    simp only [Expr.marks, Expr.nesting, Mark.deepest_append, Mark.deepest_slot,
      Mark.deepest_opens, Mark.deepest_nil]
    omega
  | .call false callee arguments => by
    have hcallee := callee.deepest_marks d
    have harguments := Expr.deepest_listMarks d arguments
    simp only [Expr.marks, Expr.nesting, Mark.deepest_append, Mark.deepest_slot, Mark.deepest_nil]
    omega
  | .lambda parameters body => by
    -- Parameters open no levels, and the body does.
    have hbody := Stmt.deepest_listMarks (d + 1) body
    simp only [Expr.marks, Expr.nesting, Mark.deepest_append, Mark.deepest_slot,
      Mark.deepest_opens, Mark.deepest_plain, Mark.deepest_nil]
    omega
  | .name name => by
    simp only [Expr.marks, Expr.nesting, Mark.deepest_slot, Mark.deepest_nil]
    omega
  | .paren inner => by
    -- Parentheses open a level.
    have hinner := inner.deepest_marks (d + 1)
    simp only [Expr.marks, Expr.nesting, Mark.deepest_append, Mark.deepest_slot,
      Mark.deepest_opens, Mark.deepest_nil]
    omega
  | .literal value => by
    simp only [Expr.marks, Expr.nesting, Mark.deepest_slot, Mark.deepest_nil]
    omega

/-- Within `d` levels, arguments open levels up to the deepest one that they need. -/
theorem Expr.deepest_listMarks (d : Nat) : ∀ es : List Expr,
    max d (Mark.deepest (Expr.listMarks d es)) = d + Expr.listNesting es
  | [] => by
    simp only [Expr.listMarks, Expr.listNesting, Mark.deepest_nil]
    omega
  | [e] => by
    have he := e.deepest_marks (d + 1)
    simp only [Expr.listMarks, Expr.listNesting, Mark.deepest_opens]
    omega
  | e :: e' :: es => by
    have he := e.deepest_marks (d + 1)
    have hes := Expr.deepest_listMarks d (e' :: es)
    rw [Expr.listMarks, Expr.listNesting]
    simp only [Mark.deepest_append, Mark.deepest_slot, Mark.deepest_opens]
    omega

/-- Within `d` levels, a statement opens levels up to the deepest one that it needs. -/
theorem Stmt.deepest_marks (d : Nat) : ∀ s : Stmt,
    max d (Mark.deepest (s.marks d)) = d + s.nesting
  | .function name parameters body => by
    have hbody := Stmt.deepest_listMarks (d + 1) body
    simp only [Stmt.marks, Stmt.nesting, Mark.deepest_append, Mark.deepest_slot,
      Mark.deepest_opens, Mark.deepest_plain, Mark.deepest_nil]
    omega
  | .declare name mutable value => by
    have hvalue := value.deepest_marks (d + 1)
    simp only [Stmt.marks, Stmt.nesting, Mark.deepest_append, Mark.deepest_slot,
      Mark.deepest_opens, Mark.deepest_plain, Mark.deepest_nil]
    omega
  | .loop condition body => by
    -- The condition and the body are one level further in, side by side.
    have hcondition := condition.deepest_marks (d + 1)
    have hbody := Stmt.deepest_listMarks (d + 1) body
    simp only [Stmt.marks, Stmt.nesting, Mark.deepest_append, Mark.deepest_slot,
      Mark.deepest_opens, Mark.deepest_nil]
    omega
  | .conditional c => by
    -- A conditional is a level of its own, for its condition and blocks.
    have hc := c.deepest_marks (d + 1)
    simp only [Stmt.marks, Stmt.nesting, Mark.deepest_opens]
    omega
  | .leave none => by
    simp only [Stmt.marks, Stmt.nesting, Mark.deepest_slot, Mark.deepest_nil]
    omega
  | .leave (some value) => by
    have hvalue := value.deepest_marks (d + 1)
    simp only [Stmt.marks, Stmt.nesting, Mark.deepest_append, Mark.deepest_slot,
      Mark.deepest_opens, Mark.deepest_nil]
    omega
  | .expression e => by
    have he := e.deepest_marks (d + 1)
    simp only [Stmt.marks, Stmt.nesting, Mark.deepest_append, Mark.deepest_slot,
      Mark.deepest_opens, Mark.deepest_nil]
    omega
  | .empty => by
    simp only [Stmt.marks, Stmt.nesting, Mark.deepest_slot, Mark.deepest_nil]
    omega

/-- Within `d` levels, a list of statements opens levels up to the deepest one that it needs. -/
theorem Stmt.deepest_listMarks (d : Nat) : ∀ ss : List Stmt,
    max d (Mark.deepest (Stmt.listMarks d ss)) = d + Stmt.listNesting ss
  | [] => by
    simp only [Stmt.listMarks, Stmt.listNesting, Mark.deepest_nil]
    omega
  | s :: ss => by
    have hs := s.deepest_marks d
    have hss := Stmt.deepest_listMarks d ss
    simp only [Stmt.listMarks, Stmt.listNesting, Mark.deepest_append]
    omega

/-- Within `d` levels, a conditional opens levels up to the deepest one that it needs. -/
theorem Conditional.deepest_marks (d : Nat) : ∀ c : Conditional,
    max d (Mark.deepest (c.marks d)) = d + c.nesting
  | .mk condition body otherwise => by
    have hcondition := condition.deepest_marks (d + 1)
    have hbody := Stmt.deepest_listMarks (d + 1) body
    have hotherwise := otherwise.deepest_marks d
    simp only [Conditional.marks, Conditional.nesting, Mark.deepest_append, Mark.deepest_slot,
      Mark.deepest_opens]
    -- Both sides are the largest of the same levels, in another order.
    simp only [← Nat.add_max_add_left, ← Nat.add_assoc, ← Nat.add_right_comm d 1, ← hcondition,
      ← hbody, ← hotherwise]
    ac_rfl

/-- Within `d` levels, what is executed otherwise opens levels up to the deepest one that it
needs. -/
theorem Alternative.deepest_marks (d : Nat) : ∀ a : Alternative,
    max d (Mark.deepest (a.marks d)) = d + a.nesting
  | .nothing => by
    simp only [Alternative.marks, Alternative.nesting, Mark.deepest_nil]
    omega
  | .block body => by
    have hbody := Stmt.deepest_listMarks (d + 1) body
    simp only [Alternative.marks, Alternative.nesting, Mark.deepest_append, Mark.deepest_slot,
      Mark.deepest_opens, Mark.deepest_nil]
    omega
  | .chain c => by
    have hc := c.deepest_marks (d + 1)
    simp only [Alternative.marks, Alternative.nesting, Mark.deepest_slot, Mark.deepest_opens]
    omega

end

/-- The deepest level that is opened in a program is its nesting. -/
theorem Program.deepest_marks (p : Program) : Mark.deepest p.marks = p.nesting := by
  have h := Stmt.deepest_listMarks 0 p.statements
  rwa [Nat.zero_max, Nat.zero_add] at h

end Brisk
