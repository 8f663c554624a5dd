import Brisk.Proofs.Tree.Tokens

/-!
# Demands on the functions of a program

Functions come from the trees in which they are written, and from the composition of functions. A
`Demand` says what is asked of each of them, and whether there may be loops in a tree. A tree meets
a demand if all functions that are written anywhere in it do, the bodies of functions included, and
if it has no loop unless there may be loops.

Two demands are of interest. Evaluation ends if there are no loops (`Demand.loopFree`), and calls
bind their parameters without failing if the parameters of each function are distinct and
compositions are made from functions of one parameter (`Demand.wellFormed`). Well-formed trees meet
the second one (`Program.WellFormed.meets`).
-/

namespace Brisk

/-- What is asked of the functions of a program. -/
structure Demand where
  /-- Asked of the parameters of a function that is written down. -/
  parameters : List Parameter → Prop
  /-- Asked of the number of parameters of each half of a composition. Functions of one parameter
  can be composed. -/
  halves : Nat → Prop
  halves_one : halves 1
  /-- Whether there may be loops. -/
  loops : Prop

namespace Demand

/-- There are no loops. -/
def loopFree : Demand where
  parameters _ := True
  halves _ := True
  halves_one := trivial
  loops := False

/-- Parameters are distinct, and the halves of a composition have one parameter. -/
def wellFormed : Demand where
  parameters := Parameter.Distinct
  halves n := n = 1
  halves_one := rfl
  loops := True

end Demand

/-! ## Trees that meet a demand -/

mutual

/-- Whether the functions and loops in an expression meet a demand. -/
def Expr.Meets (d : Demand) : Expr → Prop
  | .assign _ value => value.Meets d
  | .binary _ left right => left.Meets d ∧ right.Meets d
  | .cast operand _ => operand.Meets d
  | .unary _ operand => operand.Meets d
  | .call _ callee arguments => callee.Meets d ∧ Expr.AllMeet d arguments
  | .lambda parameters body => d.parameters parameters ∧ Stmt.AllMeet d body
  | .name _ => True
  | .paren inner => inner.Meets d
  | .literal _ => True

/-- Whether all of some expressions meet a demand. -/
def Expr.AllMeet (d : Demand) : List Expr → Prop
  | [] => True
  | e :: es => e.Meets d ∧ Expr.AllMeet d es

/-- Whether the functions and loops in a statement meet a demand. -/
def Stmt.Meets (d : Demand) : Stmt → Prop
  | .function _ parameters body => d.parameters parameters ∧ Stmt.AllMeet d body
  | .declare _ _ value => value.Meets d
  | .loop condition body => d.loops ∧ condition.Meets d ∧ Stmt.AllMeet d body
  | .conditional c => c.Meets d
  | .leave none => True
  | .leave (some value) => value.Meets d
  | .expression e => e.Meets d
  | .empty => True

/-- Whether all of some statements meet a demand. -/
def Stmt.AllMeet (d : Demand) : List Stmt → Prop
  | [] => True
  | s :: ss => s.Meets d ∧ Stmt.AllMeet d ss

/-- Whether the functions and loops in a conditional meet a demand. -/
def Conditional.Meets (d : Demand) : Conditional → Prop
  | .mk condition body otherwise =>
    condition.Meets d ∧ Stmt.AllMeet d body ∧ otherwise.Meets d

/-- Whether the functions and loops in what is executed otherwise meet a demand. -/
def Alternative.Meets (d : Demand) : Alternative → Prop
  | .nothing => True
  | .block body => Stmt.AllMeet d body
  | .chain c => c.Meets d

end

/-- Whether the functions and loops in a program meet a demand. -/
def Program.Meets (d : Demand) (p : Program) : Prop := Stmt.AllMeet d p.statements

/-! ## Well-formed trees -/

mutual

/-- The functions in a well-formed expression are well-formed. -/
theorem Expr.WellFormed.meets : ∀ {e : Expr}, e.WellFormed → e.Meets .wellFormed
  | .assign _ _, h => by
    rw [Expr.WellFormed] at h
    rw [Expr.Meets]
    exact Expr.WellFormed.meets h
  | .binary _ _ _, h => by
    rw [Expr.WellFormed] at h
    rw [Expr.Meets]
    -- What is asked of the operator itself says nothing of functions.
    obtain ⟨-, -, hleft, hright⟩ := h
    exact ⟨Expr.WellFormed.meets hleft, Expr.WellFormed.meets hright⟩
  | .cast _ _, h => by
    rw [Expr.WellFormed] at h
    rw [Expr.Meets]
    exact Expr.WellFormed.meets h.2
  | .unary _ _, h => by
    rw [Expr.WellFormed] at h
    rw [Expr.Meets]
    exact Expr.WellFormed.meets h.2
  | .call _ _ _, h => by
    rw [Expr.WellFormed] at h
    rw [Expr.Meets]
    obtain ⟨-, hcallee, harguments⟩ := h
    exact ⟨Expr.WellFormed.meets hcallee, Expr.AllWellFormed.meets harguments⟩
  | .lambda _ _, h => by
    rw [Expr.WellFormed] at h
    rw [Expr.Meets]
    -- The parameters of a lambda are distinct, and its body is well-formed.
    exact ⟨h.1, Stmt.AllWellFormed.meets h.2⟩
  | .name _, _ => by
    rw [Expr.Meets]
    trivial
  | .paren _, h => by
    rw [Expr.WellFormed] at h
    rw [Expr.Meets]
    exact Expr.WellFormed.meets h
  | .literal _, _ => by
    rw [Expr.Meets]
    trivial

/-- Well-formed expressions have well-formed functions. -/
theorem Expr.AllWellFormed.meets :
    ∀ {es : List Expr}, Expr.AllWellFormed es → Expr.AllMeet .wellFormed es
  | [], _ => by
    rw [Expr.AllMeet]
    trivial
  | _ :: _, h => by
    rw [Expr.AllWellFormed] at h
    rw [Expr.AllMeet]
    exact ⟨Expr.WellFormed.meets h.1, Expr.AllWellFormed.meets h.2⟩

/-- The functions in a well-formed statement are well-formed. -/
theorem Stmt.WellFormed.meets : ∀ {s : Stmt}, s.WellFormed → s.Meets .wellFormed
  | .function _ _ _, h => by
    rw [Stmt.WellFormed] at h
    rw [Stmt.Meets]
    exact ⟨h.1, Stmt.AllWellFormed.meets h.2⟩
  | .declare _ _ _, h => by
    rw [Stmt.WellFormed] at h
    rw [Stmt.Meets]
    exact Expr.WellFormed.meets h
  | .loop _ _, h => by
    rw [Stmt.WellFormed] at h
    rw [Stmt.Meets]
    -- Loops are not ruled out.
    exact ⟨trivial, Expr.WellFormed.meets h.1, Stmt.AllWellFormed.meets h.2⟩
  | .conditional _, h => by
    rw [Stmt.WellFormed] at h
    rw [Stmt.Meets]
    exact Conditional.WellFormed.meets h
  | .leave none, _ => by
    rw [Stmt.Meets]
    trivial
  | .leave (some _), h => by
    rw [Stmt.WellFormed] at h
    rw [Stmt.Meets]
    exact Expr.WellFormed.meets h
  | .expression _, h => by
    rw [Stmt.WellFormed] at h
    rw [Stmt.Meets]
    exact Expr.WellFormed.meets h
  | .empty, _ => by
    rw [Stmt.Meets]
    trivial

/-- The functions in a list of well-formed statements are well-formed. -/
theorem Stmt.AllWellFormed.meets :
    ∀ {ss : List Stmt}, Stmt.AllWellFormed ss → Stmt.AllMeet .wellFormed ss
  | [], _ => by
    rw [Stmt.AllMeet]
    trivial
  | _ :: _, h => by
    rw [Stmt.AllWellFormed] at h
    rw [Stmt.AllMeet]
    exact ⟨Stmt.WellFormed.meets h.1, Stmt.AllWellFormed.meets h.2⟩

/-- The functions in a well-formed conditional are well-formed. -/
theorem Conditional.WellFormed.meets :
    ∀ {c : Conditional}, c.WellFormed → c.Meets .wellFormed
  | .mk _ _ _, h => by
    rw [Conditional.WellFormed] at h
    rw [Conditional.Meets]
    obtain ⟨hcondition, hbody, hotherwise⟩ := h
    exact ⟨Expr.WellFormed.meets hcondition, Stmt.AllWellFormed.meets hbody,
      Alternative.WellFormed.meets hotherwise⟩

/-- The functions in what is executed otherwise are well-formed if it is. -/
theorem Alternative.WellFormed.meets :
    ∀ {a : Alternative}, a.WellFormed → a.Meets .wellFormed
  | .nothing, _ => by
    rw [Alternative.Meets]
    trivial
  | .block _, h => by
    rw [Alternative.WellFormed] at h
    rw [Alternative.Meets]
    exact Stmt.AllWellFormed.meets h
  | .chain _, h => by
    rw [Alternative.WellFormed] at h
    rw [Alternative.Meets]
    exact Conditional.WellFormed.meets h

end

/-- The functions in a well-formed program are well-formed. -/
theorem Program.WellFormed.meets {p : Program} (h : p.WellFormed) : p.Meets .wellFormed :=
  Stmt.AllWellFormed.meets h

end Brisk
