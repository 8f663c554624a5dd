import Brisk.Proofs.Parse.Nesting

/-!
# How high parsed trees are

Whatever walks a tree recurses as deep as the tree is high. The limit on nesting counts expressions,
blocks and conditionals, and an operator opens none of these, so it does not bound the height alone:
a row of operators of one level grows to the left, by a node for each of them
(`Program.height_exceeds_nesting`).

Together with the longest such row it does. Within one level of nesting a path passes the operators
of seven levels of precedence, then a cast, an operator in front of an operand, a call and what is
called. So with at most `k` operators in a row it passes `7 * k + 4` nodes at most, and a program
that keeps the limit is that many times as high as the limit, but for the statement on top
(`Program.height_le_of_parse`). Where no two operators of a level stand in a row this is less than
sixteen nodes for each level of nesting.
-/

namespace Brisk

/-! ## Heights -/

mutual

/-- The nodes on the longest path down from an expression, itself and the blocks of functions
counted. -/
def Expr.height : Expr → Nat
  | .assign _ value => value.height + 1
  | .binary _ left right => max left.height right.height + 1
  | .cast operand _ => operand.height + 1
  | .unary _ operand => operand.height + 1
  | .call _ callee arguments => max callee.height (Expr.listHeight arguments) + 1
  | .lambda _ body => Stmt.listHeight body + 2
  | .name _ => 1
  | .paren inner => inner.height + 1
  | .literal _ => 1

/-- The nodes on the longest path down from one of some expressions. -/
def Expr.listHeight : List Expr → Nat
  | [] => 0
  | e :: es => max e.height (Expr.listHeight es)

/-- The nodes on the longest path down from a statement, itself and its blocks counted. -/
def Stmt.height : Stmt → Nat
  | .function _ _ body => Stmt.listHeight body + 2
  | .declare _ _ value => value.height + 1
  | .loop condition body => max condition.height (Stmt.listHeight body + 1) + 1
  | .conditional c => c.height + 1
  | .leave none => 1
  | .leave (some value) => value.height + 1
  | .expression e => e.height + 1
  | .empty => 1

/-- The nodes on the longest path down from one of some statements. -/
def Stmt.listHeight : List Stmt → Nat
  | [] => 0
  | s :: ss => max s.height (Stmt.listHeight ss)

/-- The nodes on the longest path down from a conditional, itself and its blocks counted. -/
def Conditional.height : Conditional → Nat
  | .mk condition body otherwise =>
    max condition.height (max (Stmt.listHeight body + 1) otherwise.height) + 1

/-- The nodes on the longest path down from what is executed otherwise. -/
def Alternative.height : Alternative → Nat
  | .nothing => 0
  | .block body => Stmt.listHeight body + 1
  | .chain c => c.height

end

/-- The nodes on the longest path down from a statement of a program. -/
def Program.height (p : Program) : Nat := Stmt.listHeight p.statements

/-! ## Rows of operators -/

/-- How many operators of one level stand in a row in front of the last operand of an expression. -/
def Expr.row : Expr → Nat
  | .binary op left _ => (if left.level = op.level then left.row else 0) + 1
  | .assign _ _ | .cast _ _ | .unary _ _ | .call _ _ _ | .lambda _ _ | .name _ | .paren _
  | .literal _ => 0

mutual

/-- The longest row of operators of one level within an expression. -/
def Expr.longestRow : Expr → Nat
  | .assign _ value => value.longestRow
  | .binary op left right =>
    max (Expr.binary op left right).row (max left.longestRow right.longestRow)
  | .cast operand _ => operand.longestRow
  | .unary _ operand => operand.longestRow
  | .call _ callee arguments => max callee.longestRow (Expr.listLongestRow arguments)
  | .lambda _ body => Stmt.listLongestRow body
  | .name _ => 0
  | .paren inner => inner.longestRow
  | .literal _ => 0

/-- The longest row of operators of one level within some expressions. -/
def Expr.listLongestRow : List Expr → Nat
  | [] => 0
  | e :: es => max e.longestRow (Expr.listLongestRow es)

/-- The longest row of operators of one level within a statement. -/
def Stmt.longestRow : Stmt → Nat
  | .function _ _ body => Stmt.listLongestRow body
  | .declare _ _ value => value.longestRow
  | .loop condition body => max condition.longestRow (Stmt.listLongestRow body)
  | .conditional c => c.longestRow
  | .leave none => 0
  | .leave (some value) => value.longestRow
  | .expression e => e.longestRow
  | .empty => 0

/-- The longest row of operators of one level within some statements. -/
def Stmt.listLongestRow : List Stmt → Nat
  | [] => 0
  | s :: ss => max s.longestRow (Stmt.listLongestRow ss)

/-- The longest row of operators of one level within a conditional. -/
def Conditional.longestRow : Conditional → Nat
  | .mk condition body otherwise =>
    max condition.longestRow (max (Stmt.listLongestRow body) otherwise.longestRow)

/-- The longest row of operators of one level within what is executed otherwise. -/
def Alternative.longestRow : Alternative → Nat
  | .nothing => 0
  | .block body => Stmt.listLongestRow body
  | .chain c => c.longestRow

end

/-- The longest row of operators of one level within a program. -/
def Program.longestRow (p : Program) : Nat := Stmt.listLongestRow p.statements

/-- An operator is a row of its own at least. -/
theorem Expr.row_binary_pos (op : BinaryOp) (left right : Expr) :
    0 < (Expr.binary op left right).row := by
  rw [Expr.row]
  exact Nat.succ_pos _

/-- No row within an expression is shorter than the one it ends with. -/
theorem Expr.row_le_longestRow (e : Expr) : e.row ≤ e.longestRow := by
  cases e with
  | binary op left right =>
    rw [Expr.longestRow]
    exact Nat.le_max_left _ _
  | assign | cast | unary | call | lambda | name | paren | literal => exact Nat.zero_le _

/-! ## The height of one level -/

/-- The height that `n` open levels have at most when no more than `k` operators of one level stand
in a row. -/
def heightOfLevels (k n : Nat) : Nat := (7 * k + 4) * n

/-- One more level allows for trees that are higher by a fixed amount. -/
theorem heightOfLevels_succ (k n : Nat) :
    heightOfLevels k (n + 1) = heightOfLevels k n + (7 * k + 4) := Nat.mul_succ _ n

/-- More levels allow for higher trees. -/
theorem heightOfLevels_mono (k : Nat) {m n : Nat} (h : m ≤ n) :
    heightOfLevels k m ≤ heightOfLevels k n := Nat.mul_le_mul_left _ h

/-- Of two numbers of levels the larger one has the larger height. -/
theorem heightOfLevels_max (k m n : Nat) :
    heightOfLevels k (max m n) = max (heightOfLevels k m) (heightOfLevels k n) :=
  (Nat.mul_max_mul_left (7 * k + 4) m n).symm

/-- The height that an expression has at most above the levels that are open within it. -/
def Expr.ownHeight (k : Nat) : Expr → Nat
  | .binary op left right => (Expr.binary op left right).row + (7 - op.level) * k + 4
  | .cast _ _ => 4
  | .unary _ _ => 3
  | .call _ _ _ => 2
  | .assign _ _ | .lambda _ _ | .name _ | .paren _ | .literal _ => 1

/-- The tighter an expression binds, the less room there is for operators in it. -/
theorem Expr.ownHeight_le {k l : Nat} {e : Expr} (hrow : e.row ≤ k) (hl : l ≤ e.level)
    (hl' : l ≤ 8) : e.ownHeight k ≤ (8 - l) * k + 4 := by
  cases e with
  | binary op left right =>
    have hop := Parse.binaryOp_level_le op
    have hlevel : l ≤ op.level := hl
    have hmono : (8 - op.level) * k ≤ (8 - l) * k := Nat.mul_le_mul_right k (by omega)
    -- A row of the operator's level stands on top of those of the tighter levels.
    have hsplit : (8 - op.level) * k = (7 - op.level) * k + k := by
      rw [← Nat.succ_mul]
      congr 1
      omega
    rw [Expr.ownHeight]
    omega
  | assign | cast | unary | call | lambda | name | paren | literal =>
    rw [Expr.ownHeight]
    omega

/-- An expression is at most one level high above the levels that are open within it. -/
theorem Expr.ownHeight_le_level {k : Nat} {e : Expr} (hrow : e.row ≤ k) :
    e.ownHeight k ≤ 7 * k + 4 := by
  by_cases hl : 1 ≤ e.level
  · exact ownHeight_le hrow hl (by omega)
  · cases e with
    | assign =>
      rw [Expr.ownHeight]
      omega
    | binary op => exact absurd (Parse.binaryOp_one_le_level op) hl
    | cast | unary | call | lambda | name | paren | literal => exact absurd hl (by simp [level])

/-- Casts and what binds tighter hold no operators above the levels that are open within them. -/
theorem Expr.ownHeight_add_level_le {k : Nat} {e : Expr} (h : 8 ≤ e.level) :
    e.ownHeight k + e.level ≤ 12 := by
  cases e with
  | assign => exact absurd h (by simp [level])
  | binary op =>
    have hop := Parse.binaryOp_level_le op
    rw [level] at h
    omega
  | cast | unary | call | lambda | name | paren | literal => simp [ownHeight, level]

/-- What can be called is one node high above the levels that are open within it. -/
theorem Expr.Callable.ownHeight_eq {k : Nat} {e : Expr} (h : e.Callable) : e.ownHeight k = 1 := by
  cases e with
  | name | paren | lambda => rfl
  | assign | binary | cast | unary | call | literal => exact absurd h (by simp [Callable])

/-- An expression in a level of its own is as high as its levels are. -/
theorem Expr.height_le_of_ownHeight {k : Nat} {e : Expr} (hrow : e.longestRow ≤ k)
    (h : e.height ≤ heightOfLevels k e.nesting + e.ownHeight k) :
    e.height ≤ heightOfLevels k (e.nesting + 1) := by
  have hown := ownHeight_le_level (Nat.le_trans e.row_le_longestRow hrow)
  rw [heightOfLevels_succ]
  omega

/-! ## Heights of well-formed trees -/

variable {k : Nat}

mutual

/-- A well-formed expression is as high as the levels that are open within it, and what stands above
them. -/
theorem Expr.height_le : ∀ e : Expr, e.WellFormed → e.longestRow ≤ k →
    e.height ≤ heightOfLevels k e.nesting + e.ownHeight k
  | .assign _ value, hwf, hrow => by
    rw [Expr.WellFormed] at hwf
    -- The value is a level further in.
    rw [Expr.longestRow] at hrow
    have hvalue := Expr.height_le_of_ownHeight hrow (value.height_le hwf hrow)
    rw [Expr.height, Expr.nesting, Expr.ownHeight]
    omega
  | .binary op left right, hwf, hrow => by
    rw [Expr.WellFormed] at hwf
    obtain ⟨hl, hr, hwfl, hwfr⟩ := hwf
    rw [Expr.longestRow] at hrow
    have hop := Parse.binaryOp_level_le op
    have hleft := left.height_le hwfl (by omega)
    have hright := right.height_le hwfr (by omega)
    have heq : 8 - (op.level + 1) = 7 - op.level := by omega
    -- The right operand binds tighter than the operator, so it only holds operators of tighter
    -- levels.
    have hrowr := Nat.le_trans right.row_le_longestRow (show right.longestRow ≤ k by omega)
    have hownr := Expr.ownHeight_le hrowr hr (by omega)
    rw [heq] at hownr
    have hrowpos := Expr.row_binary_pos op left right
    -- The left operand may have the level of the operator, and then its row goes on with it.
    have hownl : left.ownHeight k + 1 ≤
        (Expr.binary op left right).row + (7 - op.level) * k + 4 := by
      rw [Expr.row]
      split
      · next hlevel =>
        cases left with
        | binary op' left' right' =>
          have hlevel' : op'.level = op.level := hlevel
          rw [Expr.ownHeight, hlevel']
          omega
        | assign | cast | unary | call | lambda | name | paren | literal =>
          have hone := Parse.binaryOp_one_le_level op
          simp only [Expr.level] at hlevel
          omega
      · next hlevel =>
        have hrowl := Nat.le_trans left.row_le_longestRow (show left.longestRow ≤ k by omega)
        have hownl := Expr.ownHeight_le hrowl (Nat.lt_of_le_of_ne hl (Ne.symm hlevel)) (by omega)
        rw [heq] at hownl
        omega
    rw [Expr.height, Expr.nesting, Expr.ownHeight, heightOfLevels_max]
    omega
  | .cast operand _, hwf, hrow => by
    rw [Expr.WellFormed] at hwf
    rw [Expr.longestRow] at hrow
    have hoperand := operand.height_le hwf.2 hrow
    -- An operand of a cast holds no operators outside of its own levels.
    have hown := operand.ownHeight_add_level_le (k := k) (Nat.le_of_succ_le hwf.1)
    rw [Expr.height, Expr.nesting, Expr.ownHeight]
    omega
  | .unary _ operand, hwf, hrow => by
    rw [Expr.WellFormed] at hwf
    rw [Expr.longestRow] at hrow
    have hoperand := operand.height_le hwf.2 hrow
    have hown := operand.ownHeight_add_level_le (k := k) (by omega)
    rw [Expr.height, Expr.nesting, Expr.ownHeight]
    omega
  | .call traced callee arguments, hwf, hrow => by
    rw [Expr.WellFormed] at hwf
    obtain ⟨hcallable, hwf, hwfs⟩ := hwf
    rw [Expr.longestRow] at hrow
    have hcallee := callee.height_le hwf (by omega)
    have harguments := Expr.listHeight_le arguments hwfs (by omega)
    -- The callee of a traced call is a level further in, and that of a plain one is a single node.
    cases traced with
    | true =>
      have hlevel := Expr.height_le_of_ownHeight (by omega) hcallee
      rw [Expr.height, Expr.nesting, Expr.ownHeight, heightOfLevels_max]
      omega
    | false =>
      rw [(hcallable rfl).ownHeight_eq] at hcallee
      rw [Expr.height, Expr.nesting, Expr.ownHeight, heightOfLevels_max]
      omega
  | .lambda _ body, hwf, hrow => by
    rw [Expr.WellFormed] at hwf
    rw [Expr.longestRow] at hrow
    have hbody := Stmt.listHeight_le body hwf.2 hrow
    -- The body is a level further in, below the lambda and its block.
    rw [Expr.height, Expr.nesting, Expr.ownHeight, heightOfLevels_succ]
    omega
  | .name _, _, _ => by
    rw [Expr.height, Expr.ownHeight]
    omega
  | .paren inner, hwf, hrow => by
    rw [Expr.WellFormed] at hwf
    rw [Expr.longestRow] at hrow
    have hinner := Expr.height_le_of_ownHeight hrow (inner.height_le hwf hrow)
    rw [Expr.height, Expr.nesting, Expr.ownHeight]
    omega
  | .literal _, _, _ => by
    rw [Expr.height, Expr.ownHeight]
    omega

/-- Arguments are as high as the levels that they open. -/
theorem Expr.listHeight_le : ∀ es : List Expr, Expr.AllWellFormed es → Expr.listLongestRow es ≤ k →
    Expr.listHeight es ≤ heightOfLevels k (Expr.listNesting es)
  | [], _, _ => by
    rw [Expr.listHeight]
    exact Nat.zero_le _
  | e :: es, hwf, hrow => by
    rw [Expr.AllWellFormed] at hwf
    rw [Expr.listLongestRow] at hrow
    have he := Expr.height_le_of_ownHeight (by omega) (e.height_le hwf.1 (by omega))
    have hes := Expr.listHeight_le es hwf.2 (by omega)
    rw [Expr.listHeight, Expr.listNesting, heightOfLevels_max]
    omega

/-- A well-formed statement is as high as the levels that it opens, and the statement itself. -/
theorem Stmt.height_le : ∀ s : Stmt, s.WellFormed → s.longestRow ≤ k →
    s.height ≤ heightOfLevels k s.nesting + 1
  | .function _ _ body, hwf, hrow => by
    rw [Stmt.WellFormed] at hwf
    rw [Stmt.longestRow] at hrow
    -- The statements of the body are a level further in.
    have hbody := Stmt.listHeight_le body hwf.2 hrow
    rw [Stmt.height, Stmt.nesting, heightOfLevels_succ]
    omega
  | .declare _ _ value, hwf, hrow => by
    rw [Stmt.WellFormed] at hwf
    rw [Stmt.longestRow] at hrow
    have hvalue := Expr.height_le_of_ownHeight hrow (value.height_le hwf hrow)
    rw [Stmt.height, Stmt.nesting]
    omega
  | .loop condition body, hwf, hrow => by
    rw [Stmt.WellFormed] at hwf
    rw [Stmt.longestRow] at hrow
    have hcondition := Expr.height_le_of_ownHeight (by omega)
      (condition.height_le hwf.1 (by omega))
    have hbody := Stmt.listHeight_le body hwf.2 (by omega)
    -- The condition and the body are both a level further in.
    have hblock := heightOfLevels_succ k (Stmt.listNesting body)
    rw [Stmt.height, Stmt.nesting, heightOfLevels_max]
    omega
  | .conditional c, hwf, hrow => by
    rw [Stmt.WellFormed] at hwf
    rw [Stmt.longestRow] at hrow
    have hc := c.height_le hwf hrow
    rw [Stmt.height, Stmt.nesting, heightOfLevels_succ]
    omega
  | .leave none, _, _ => by
    rw [Stmt.height]
    omega
  | .leave (some value), hwf, hrow => by
    rw [Stmt.WellFormed] at hwf
    rw [Stmt.longestRow] at hrow
    have hvalue := Expr.height_le_of_ownHeight hrow (value.height_le hwf hrow)
    rw [Stmt.height, Stmt.nesting]
    omega
  | .expression e, hwf, hrow => by
    rw [Stmt.WellFormed] at hwf
    rw [Stmt.longestRow] at hrow
    have he := Expr.height_le_of_ownHeight hrow (e.height_le hwf hrow)
    rw [Stmt.height, Stmt.nesting]
    omega
  | .empty, _, _ => by
    rw [Stmt.height]
    omega

/-- Well-formed statements are as high as the levels that they open, and one statement. -/
theorem Stmt.listHeight_le : ∀ ss : List Stmt, Stmt.AllWellFormed ss → Stmt.listLongestRow ss ≤ k →
    Stmt.listHeight ss ≤ heightOfLevels k (Stmt.listNesting ss) + 1
  | [], _, _ => by
    rw [Stmt.listHeight]
    exact Nat.zero_le _
  | s :: ss, hwf, hrow => by
    rw [Stmt.AllWellFormed] at hwf
    rw [Stmt.listLongestRow] at hrow
    have hs := s.height_le hwf.1 (by omega)
    have hss := Stmt.listHeight_le ss hwf.2 (by omega)
    rw [Stmt.listHeight, Stmt.listNesting, heightOfLevels_max]
    omega

/-- A well-formed conditional is as high as the levels that are open within it, and the conditional
itself. -/
theorem Conditional.height_le : ∀ c : Conditional, c.WellFormed → c.longestRow ≤ k →
    c.height ≤ heightOfLevels k c.nesting + 1
  | .mk condition body otherwise, hwf, hrow => by
    rw [Conditional.WellFormed] at hwf
    rw [Conditional.longestRow] at hrow
    have hcondition := Expr.height_le_of_ownHeight (by omega)
      (condition.height_le hwf.1 (by omega))
    have hbody := Stmt.listHeight_le body hwf.2.1 (by omega)
    have hblock := heightOfLevels_succ k (Stmt.listNesting body)
    have hotherwise := otherwise.height_le hwf.2.2 (by omega)
    rw [Conditional.height, Conditional.nesting, heightOfLevels_max, heightOfLevels_max]
    omega

/-- What is executed otherwise is as high as the levels that it opens. -/
theorem Alternative.height_le : ∀ a : Alternative, a.WellFormed → a.longestRow ≤ k →
    a.height ≤ heightOfLevels k a.nesting
  | .nothing, _, _ => by
    rw [Alternative.height]
    exact Nat.zero_le _
  | .block body, hwf, hrow => by
    rw [Alternative.WellFormed] at hwf
    rw [Alternative.longestRow] at hrow
    have hbody := Stmt.listHeight_le body hwf hrow
    rw [Alternative.height, Alternative.nesting, heightOfLevels_succ]
    omega
  | .chain c, hwf, hrow => by
    rw [Alternative.WellFormed] at hwf
    rw [Alternative.longestRow] at hrow
    have hc := c.height_le hwf hrow
    rw [Alternative.height, Alternative.nesting, heightOfLevels_succ]
    omega

end

/-! ## Heights of parsed programs -/

namespace Program

/-- A well-formed program is as high as the levels that it opens, and one statement. -/
theorem height_le {p : Program} (hwf : p.WellFormed) :
    p.height ≤ heightOfLevels p.longestRow p.nesting + 1 :=
  Stmt.listHeight_le p.statements hwf (Nat.le_refl _)

/-- A program that is parsed is at most `7 * k + 4` nodes high for each level that may be nested,
and one node for the statement on top, where `k` is the length of its longest row of operators of
one level. So sixteen nodes for each level suffice if none of its operators stands in a row with
another. -/
theorem height_le_of_parse {limits : Limits} {src : Source} {p : Program}
    (h : parse limits src = .ok p) :
    p.height ≤ (7 * p.longestRow + 4) * limits.nesting + 1 ∧
      (p.longestRow ≤ 1 → p.height ≤ 16 * (limits.nesting + 1)) := by
  obtain ⟨hwf, -⟩ := filled_of_parse h
  have hnesting := nesting_le_of_parse h
  have hheight := height_le hwf
  constructor
  · calc p.height
        ≤ heightOfLevels p.longestRow p.nesting + 1 := hheight
      _ ≤ heightOfLevels p.longestRow limits.nesting + 1 :=
        Nat.succ_le_succ (heightOfLevels_mono _ hnesting)
  · intro hrow
    calc p.height
        ≤ heightOfLevels p.longestRow p.nesting + 1 := hheight
      -- Where no row has more than one operator, a level has at most eleven nodes in a path.
      _ ≤ 11 * p.nesting + 1 := by
        refine Nat.succ_le_succ (Nat.mul_le_mul_right p.nesting ?_)
        omega
      _ ≤ 16 * (limits.nesting + 1) := by omega

/-- In a sum with a product in it no two operators of one level stand in a row. -/
theorem height_le_of_parse_product :
    ∃ p, parse .standard (.ofString "1 + 2 * 3;") = .ok p ∧ p.longestRow = 1 ∧
      p.height ≤ 11 * 128 + 1 ∧ p.height ≤ 16 * (128 + 1) := by
  have hrow : (match parse .standard (.ofString "1 + 2 * 3;") with
      | .ok p => p.longestRow
      | .error _ => 0) = 1 := by decide +kernel
  cases h : parse .standard (.ofString "1 + 2 * 3;") with
  | error e =>
    rw [h] at hrow
    exact absurd hrow Nat.zero_ne_one
  | ok p =>
    rw [h] at hrow
    simp only at hrow
    obtain ⟨hheight, hsparse⟩ := height_le_of_parse h
    rw [hrow] at hheight
    exact ⟨p, rfl, hrow, hheight, hsparse (by omega)⟩

/-- The limit on nesting alone does not bound the height by sixteen nodes for each level: a sum of
33 ones is parsed where a single level may be open. -/
theorem height_exceeds_nesting :
    ∃ p, parse ⟨1200, 1200, 1200, 1⟩ (.ofString (String.join (List.replicate 32 "1+") ++ "1;")) =
      .ok p ∧ 16 * (1 + 1) < p.height := by
  have hheight : (match parse ⟨1200, 1200, 1200, 1⟩
        (.ofString (String.join (List.replicate 32 "1+") ++ "1;")) with
      | .ok p => p.height
      | .error _ => 0) = 34 := by decide +kernel
  cases h : parse ⟨1200, 1200, 1200, 1⟩
      (.ofString (String.join (List.replicate 32 "1+") ++ "1;")) with
  | error e =>
    rw [h] at hheight
    exact absurd hheight (Nat.succ_ne_zero 33).symm
  | ok p =>
    rw [h] at hheight
    simp only at hheight
    exact ⟨p, rfl, by omega⟩

end Program

end Brisk
