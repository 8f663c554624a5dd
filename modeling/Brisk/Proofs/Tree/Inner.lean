import Brisk.Proofs.Tree.Tokens

/-!
# What is not in the writing of a tree

Dollar signs stand only in the slots for them, and the end of the file stands behind a tree and not
in it (`Program.inner_slots`). So the tokens of a tree are what is left of any of its writings when
the dollar signs are taken out (`Slot.Filled.filter_eq`).
-/

namespace Brisk

/-- Whether none of the tokens in slots is the end of the file or a dollar sign. -/
def Slot.Inner (slots : List Slot) : Prop :=
  ∀ t ∈ tokens slots, t ≠ .endOfFile ∧ t ≠ .symbol .dollar

namespace Slot.Inner

variable {slots slots' : List Slot} {t : Token}

/-- No slots are inner ones. -/
theorem nil : Inner [] := by
  intro t ht
  exact absurd ht (by simp)

/-- A token that is neither the end of the source nor a dollar sign is an inner one. -/
theorem token (ht : t ≠ .endOfFile ∧ t ≠ .symbol .dollar) (h : Inner slots) :
    Inner (.token t :: slots) := by
  intro u hu
  rcases List.mem_cons.mp hu with rfl | hu
  · exact ht
  · exact h u hu

/-- Inner slots and further ones are inner slots. -/
theorem append (h : Inner slots) (h' : Inner slots') : Inner (slots ++ slots') := by
  intro t ht
  rw [tokens_append] at ht
  rcases List.mem_append.mp ht with ht | ht
  · exact h t ht
  · exact h' t ht

end Slot.Inner

/-- A parameter is written with inner slots. -/
theorem Parameter.inner_slots (p : Parameter) : Slot.Inner p.slots := by
  rw [slots]
  refine .append ?_ (.token (by simp) .nil)
  split
  · exact .token (by simp) .nil
  · exact .nil

/-- Parameters with commas between them are written with inner slots. -/
theorem Parameter.inner_listSlots : ∀ ps : List Parameter, Slot.Inner (listSlots ps)
  | [] => .nil
  | [p] => inner_slots p
  | p :: p' :: ps => by
    rw [listSlots]
    exact (inner_slots p).append (.token (by simp) (inner_listSlots (p' :: ps)))

/-- Parameters in parentheses are written with inner slots. -/
theorem Parameter.inner_allSlots (ps : List Parameter) : Slot.Inner (allSlots ps) :=
  .token (by simp) ((inner_listSlots ps).append (.token (by simp) .nil))

mutual

/-- An expression is written with inner slots. -/
theorem Expr.inner_slots : ∀ e : Expr, Slot.Inner e.slots
  | .assign target value => by
    -- A name and a sign stand in front of the value.
    rw [Expr.slots]
    exact .token (by simp) (.token (by simp) (Expr.inner_slots value))
  | .binary op left right => by
    rw [Expr.slots]
    refine (Expr.inner_slots left).append (.token ?_ (Expr.inner_slots right))
    -- The token of an operator is its symbol.
    cases op <;> simp [BinaryOp.symbol]
  | .cast operand target => by
    rw [Expr.slots]
    exact (Expr.inner_slots operand).append (.token (by simp) (.token (by simp) .nil))
  | .unary op operand => by
    rw [Expr.slots]
    refine .token ?_ (Expr.inner_slots operand)
    cases op <;> simp [UnaryOp.symbol]
  | .call true callee arguments => by
    rw [Expr.slots]
    exact .token (by simp) ((Expr.inner_slots callee).append (.token (by simp) (.token (by simp)
      ((Expr.inner_listSlots arguments).append (.token (by simp) .nil)))))
  | .call false callee arguments => by
    rw [Expr.slots]
    exact (Expr.inner_slots callee).append (.token (by simp)
      ((Expr.inner_listSlots arguments).append (.token (by simp) .nil)))
  | .lambda parameters body => by
    rw [Expr.slots]
    exact .token (by simp) ((Parameter.inner_allSlots parameters).append
      (.token (by simp) ((Stmt.inner_listSlots body).append (.token (by simp) .nil))))
  | .name name => by
    rw [Expr.slots]
    exact .token (by simp) .nil
  | .paren inner => by
    rw [Expr.slots]
    exact .token (by simp) ((Expr.inner_slots inner).append (.token (by simp) .nil))
  | .literal value => by
    rw [Expr.slots]
    refine .token ?_ .nil
    -- The token of a literal is the literal.
    cases value <;> simp [Literal.token]

/-- Arguments are written with inner slots. -/
theorem Expr.inner_listSlots : ∀ es : List Expr, Slot.Inner (Expr.listSlots es)
  | [] => by
    rw [Expr.listSlots]
    exact .nil
  | [e] => by
    rw [Expr.listSlots]
    exact Expr.inner_slots e
  | e :: e' :: es => by
    rw [Expr.listSlots]
    exact (Expr.inner_slots e).append (.token (by simp) (Expr.inner_listSlots (e' :: es)))

/-- A statement is written with inner slots. -/
theorem Stmt.inner_slots : ∀ s : Stmt, Slot.Inner s.slots
  | .function name parameters body => by
    rw [Stmt.slots]
    exact .token (by simp) (.token (by simp) ((Parameter.inner_allSlots parameters).append
      (.token (by simp) ((Stmt.inner_listSlots body).append (.token (by simp) .nil)))))
  | .declare name mutable value => by
    rw [Stmt.slots]
    refine .token (by simp) (.append ?_ (.token (by simp) (.token (by simp)
      ((Expr.inner_slots value).append (.token (by simp) .nil)))))
    -- The keyword for a mutable name has a slot only if the name is one.
    split
    · exact .token (by simp) .nil
    · exact .nil
  | .loop condition body => by
    rw [Stmt.slots]
    exact .token (by simp) (.token (by simp) ((Expr.inner_slots condition).append
      (.token (by simp) (.token (by simp)
        ((Stmt.inner_listSlots body).append (.token (by simp) .nil))))))
  | .conditional c => by
    rw [Stmt.slots]
    exact Conditional.inner_slots c
  | .leave none => by
    rw [Stmt.slots]
    exact .token (by simp) (.token (by simp) .nil)
  | .leave (some value) => by
    rw [Stmt.slots]
    exact .token (by simp) ((Expr.inner_slots value).append (.token (by simp) .nil))
  | .expression e => by
    rw [Stmt.slots]
    exact (Expr.inner_slots e).append (.token (by simp) .nil)
  | .empty => by
    rw [Stmt.slots]
    exact .token (by simp) .nil

/-- Statements one behind the other are written with inner slots. -/
theorem Stmt.inner_listSlots : ∀ ss : List Stmt, Slot.Inner (Stmt.listSlots ss)
  | [] => by
    rw [Stmt.listSlots]
    exact .nil
  | s :: ss => by
    rw [Stmt.listSlots]
    exact (Stmt.inner_slots s).append (Stmt.inner_listSlots ss)

/-- A conditional is written with inner slots. -/
theorem Conditional.inner_slots : ∀ c : Conditional, Slot.Inner c.slots
  | .mk condition body otherwise => by
    rw [Conditional.slots]
    exact .token (by simp) (.token (by simp) ((Expr.inner_slots condition).append
      (.token (by simp) (.token (by simp) ((Stmt.inner_listSlots body).append
        (.token (by simp) (Alternative.inner_slots otherwise)))))))

/-- What is executed otherwise is written with inner slots. -/
theorem Alternative.inner_slots : ∀ a : Alternative, Slot.Inner a.slots
  | .nothing => by
    rw [Alternative.slots]
    exact .nil
  | .block body => by
    rw [Alternative.slots]
    exact .token (by simp) (.token (by simp)
      ((Stmt.inner_listSlots body).append (.token (by simp) .nil)))
  | .chain c => by
    rw [Alternative.slots]
    exact .token (by simp) (Conditional.inner_slots c)

end

/-- Whichever slots for dollar signs are filled, the other tokens are those of the slots. -/
theorem Slot.Filled.filter_eq {slots : List Slot} {ts : List Token} (h : Filled slots ts)
    (hinner : Inner slots) : ts.filter (· ≠ .symbol .dollar) = tokens slots := by
  induction h with
  | nil => rfl
  | @token t slots ts _ ih =>
    have ht := hinner t List.mem_cons_self
    have htail : Inner slots := fun u hu => hinner u (List.mem_cons_of_mem t hu)
    rw [List.filter_cons_of_pos (by simpa using ht.2), ih htail, tokens_token]
  | blank _ ih => exact ih hinner
  | dollar _ ih =>
    rw [List.filter_cons_of_neg (by simp)]
    exact ih hinner

/-- A program is written with inner slots: the end of the source is not written, and dollar signs
have slots of their own. -/
theorem Program.inner_slots (p : Program) : Slot.Inner p.slots := Stmt.inner_listSlots p.statements

end Brisk
