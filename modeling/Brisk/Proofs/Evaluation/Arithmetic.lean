import Brisk.Evaluation.Call
import Brisk.Proofs.Evaluation.Frame
import Brisk.Proofs.Number.Digits
import Mathlib.Algebra.Group.Int.Defs

/-!
# Integer arithmetic

Trees of integer literals, parentheses, signs and arithmetic operators are computed step by step,
each step behind those of its operands and the left operand first (`Arithmetic.steps`). A step can
be made if its result over the mathematical integers fits in 32 bits, and if it neither divides by
zero nor takes the remainder of the least integer by minus one (`Arithmetic.Computes`).

Evaluation makes exactly these steps. If all of them can be made, it comes to the value over the
mathematical integers, and otherwise it fails at the first one that cannot be made
(`Arithmetic.expression_eq`, `Arithmetic.computed_exactly`). Nothing else changes.
-/

namespace Brisk

open Eval

/-! ## Integers of 32 bits -/

namespace Integer

/-- Whether a mathematical integer is one of 32 bits. -/
def Fits (n : Int) : Prop := -2 ^ 31 ≤ n ∧ n ≤ 2 ^ 31 - 1

instance (n : Int) : Decidable (Fits n) :=
  inferInstanceAs (Decidable (-2 ^ 31 ≤ n ∧ n ≤ 2 ^ 31 - 1))

/-- Every integer of 32 bits fits. -/
theorem fits_toInt (n : Int32) : Fits n.toInt := ⟨n.minValue_le_toInt, n.toInt_le⟩

/-- What fits is kept when it is cut down to 32 bits. -/
theorem toInt_ofInt_of_fits {n : Int} (h : Fits n) : (Int32.ofInt n).toInt = n := by
  obtain ⟨hmin, hmax⟩ := h
  exact Int32.toInt_ofInt_of_le (by omega) (by omega)

/-- The quotient of two integers fits, except for that of the least one by minus one. -/
theorem fits_tdiv_iff {a b : Int} (ha : Fits a) (hb : b ≠ 0) :
    Fits (a.tdiv b) ↔ ¬(a = -2 ^ 31 ∧ b = -1) := by
  obtain ⟨hmin, hmax⟩ := ha
  constructor
  · -- The one quotient out of range is that of the least integer by minus one.
    rintro ⟨-, hle⟩ ⟨rfl, rfl⟩
    exact absurd hle (by decide)
  · intro hne
    have habs : (a.tdiv b).natAbs = a.natAbs / b.natAbs := Int.natAbs_tdiv a b
    by_cases hone : b = 1 ∨ b = -1
    · rcases hone with rfl | rfl
      · rw [Int.tdiv_one]
        exact ⟨hmin, hmax⟩
      · rw [Int.tdiv_neg, Int.tdiv_one]
        constructor <;> omega
    · -- A divisor other than one and minus one halves the magnitude at least.
      have hhalf : a.natAbs / b.natAbs ≤ a.natAbs / 2 :=
        Nat.div_le_div_left (by omega) (by decide)
      constructor <;> omega

/-- A remainder has the sign of the dividend and at most its magnitude. -/
theorem tmod_between (a b : Int) : (0 ≤ a → 0 ≤ a.tmod b ∧ a.tmod b ≤ a) ∧
    (a ≤ 0 → a ≤ a.tmod b ∧ a.tmod b ≤ 0) := by
  have habs : (a.tmod b).natAbs = a.natAbs % b.natAbs := Int.natAbs_tmod a b
  have hle : a.natAbs % b.natAbs ≤ a.natAbs := Nat.mod_le _ _
  constructor
  · intro ha
    have hsign := Int.tmod_nonneg b ha
    omega
  · intro ha
    have hsign := Int.tmod_nonneg b (Int.neg_nonneg_of_nonpos ha)
    rw [Int.neg_tmod] at hsign
    omega

/-- What the division cuts off is the remainder, so the rest of the dividend fits with it. -/
theorem fits_tdiv_mul {a : Int} (ha : Fits a) (b : Int) : Fits (a.tdiv b * b) := by
  obtain ⟨hmin, hmax⟩ := ha
  obtain ⟨hpos, hneg⟩ := tmod_between a b
  have hsum := Int.tdiv_mul_add_tmod a b
  constructor <;> omega

end Integer

/-- Checking asks whether an integer fits. -/
theorem checked_eq (n : Int) :
    checked n = if Integer.Fits n then .ok (.int (Int32.ofInt n)) else .error .overflow := by
  have hfits : Integer.Fits n ↔ -2147483648 ≤ n ∧ n ≤ 2147483647 := Iff.rfl
  unfold checked Integer.ofInt?
  by_cases h : Integer.Fits n
  · rw [if_pos h, if_pos (hfits.mp h)]
  · rw [if_neg h, if_neg (mt hfits.mpr h)]

/-! ## Operators -/

/-- The operators of integer arithmetic. -/
inductive ArithmeticOp where
  | add
  | subtract
  | multiply
  | divide
  | remainder
  deriving DecidableEq, Repr

namespace ArithmeticOp

/-- An operator of arithmetic among those between two operands. -/
def binary : ArithmeticOp → BinaryOp
  | add => .add
  | subtract => .subtract
  | multiply => .multiply
  | divide => .divide
  | remainder => .remainder

/-- The result over the mathematical integers. Division cuts off toward zero, and a remainder takes
the sign of the dividend. -/
def exact (a b : Int) : ArithmeticOp → Int
  | add => a + b
  | subtract => a - b
  | multiply => a * b
  | divide => a.tdiv b
  | remainder => a.tmod b

/-- Whether an operator divides its left operand by its right one. -/
def IsDivision : ArithmeticOp → Prop
  | divide | remainder => True
  | add | subtract | multiply => False

instance (op : ArithmeticOp) : Decidable op.IsDivision := by
  cases op <;> unfold IsDivision <;> infer_instance

end ArithmeticOp

/-! ## Trees -/

/-- Trees of integer literals, parentheses, signs and arithmetic operators. -/
inductive Arithmetic where
  | literal (n : Int32)
  | paren (inner : Arithmetic)
  | negate (operand : Arithmetic)
  | binary (op : ArithmeticOp) (left right : Arithmetic)
  deriving DecidableEq, Repr

namespace Arithmetic

/-- A tree of integer literals, parentheses, signs and arithmetic operators as an expression. -/
def expr : Arithmetic → Expr
  | literal n => .literal (.int n)
  | paren inner => .paren inner.expr
  | negate operand => .unary .negate operand.expr
  | binary op left right => .binary op.binary left.expr right.expr

/-- The value over the mathematical integers. -/
def value : Arithmetic → Int
  | literal n => n.toInt
  | paren inner => inner.value
  | negate operand => -operand.value
  | binary op left right => op.exact left.value right.value

/-- The steps of a computation, each given by the tree whose value it computes: those of the
operands from left to right, and the tree itself behind them. -/
def steps : Arithmetic → List Arithmetic
  | literal n => [literal n]
  | paren inner => inner.steps ++ [paren inner]
  | negate operand => operand.steps ++ [negate operand]
  | binary op left right => left.steps ++ right.steps ++ [binary op left right]

/-- Whether the last step divides by zero. -/
def DividesByZero : Arithmetic → Prop
  | binary op _ right => op.IsDivision ∧ right.value = 0
  | literal _ | paren _ | negate _ => False

/-- Whether the last step takes the remainder of the least integer by minus one, for which there is
no quotient. -/
def LeastByMinusOne : Arithmetic → Prop
  | binary op left right => op = .remainder ∧ left.value = -2 ^ 31 ∧ right.value = -1
  | literal _ | paren _ | negate _ => False

instance (t : Arithmetic) : Decidable t.DividesByZero := by
  cases t <;> unfold DividesByZero <;> infer_instance

instance (t : Arithmetic) : Decidable t.LeastByMinusOne := by
  cases t <;> unfold LeastByMinusOne <;> infer_instance

/-- Whether the last step can be made, if those in front of it can. -/
def Computes (t : Arithmetic) : Prop :=
  ¬t.DividesByZero ∧ ¬t.LeastByMinusOne ∧ Integer.Fits t.value

instance (t : Arithmetic) : Decidable t.Computes :=
  inferInstanceAs (Decidable (¬t.DividesByZero ∧ ¬t.LeastByMinusOne ∧ Integer.Fits t.value))

/-- The error of a step that cannot be made. -/
def fault (t : Arithmetic) : RuntimeError :=
  if t.DividesByZero then .divisionByZero else .overflow

/-- What the last step comes to. -/
def lastStep (t : Arithmetic) : Except RuntimeError Value :=
  if t.Computes then .ok (.int (Int32.ofInt t.value)) else .error t.fault

/-- Every computation ends with a step of its own. -/
theorem mem_steps (t : Arithmetic) : t ∈ t.steps := by
  cases t <;> simp [steps]

/-- If all steps compute, what the last of them gives fits. -/
theorem fits_value {t : Arithmetic} (h : ∀ s ∈ t.steps, s.Computes) : Integer.Fits t.value :=
  (h t t.mem_steps).2.2

/-- Parentheses change nothing. -/
theorem computes_paren {inner : Arithmetic} (h : ∀ s ∈ inner.steps, s.Computes) :
    (paren inner).Computes := by
  have hfits : Integer.Fits inner.value := fits_value h
  exact ⟨id, id, hfits⟩

/-! ## Steps -/

/-- A step without a division only needs its result to fit. -/
theorem lastStep_of_checked {t : Arithmetic} (hzero : ¬t.DividesByZero)
    (hleast : ¬t.LeastByMinusOne) : t.lastStep = checked t.value := by
  have hcomputes : t.Computes ↔ Integer.Fits t.value := by simp [Computes, hzero, hleast]
  unfold lastStep fault
  rw [checked_eq, if_neg hzero]
  simp only [hcomputes]

/-- A division whose divisor is zero ends with that error. -/
theorem lastStep_of_dividesByZero {t : Arithmetic} (h : t.DividesByZero) :
    t.lastStep = .error .divisionByZero := by
  unfold lastStep fault
  rw [if_neg fun hcomputes => hcomputes.1 h, if_pos h]

/-- The operators make the last step. -/
theorem apply_eq_lastStep (op : ArithmeticOp) {left right : Arithmetic} {a b : Int32}
    (ha : a.toInt = left.value) (hb : b.toInt = right.value) :
    op.binary.apply (.int a) (.int b) = (binary op left right).lastStep := by
  have hfits : Integer.Fits left.value := ha ▸ Integer.fits_toInt a
  show (BinaryOp.onInt a.toInt b.toInt op.binary).getD _ = _
  rw [ha, hb]
  -- A sum, a difference and a product fail only if their exact value is out of range.
  cases op with
  | add | subtract | multiply =>
    rw [lastStep_of_checked]
    · rfl
    · exact fun h => h.1
    · exact fun h => absurd h.1 (by decide)
  | divide =>
    show (if right.value = 0 then _ else _) = _
    by_cases hzero : right.value = 0
    · have hdivides : (binary .divide left right).DividesByZero := ⟨trivial, hzero⟩
      rw [if_pos hzero, lastStep_of_dividesByZero hdivides]
    · rw [if_neg hzero, lastStep_of_checked]
      · rfl
      · exact fun h => hzero h.2
      · exact fun h => absurd h.1 (by decide)
  | remainder =>
    show (if right.value = 0 then _ else _) = _
    by_cases hzero : right.value = 0
    · have hdivides : (binary .remainder left right).DividesByZero := ⟨trivial, hzero⟩
      rw [if_pos hzero, lastStep_of_dividesByZero hdivides]
    · -- The quotient is checked as well, and that is where the least integer fails.
      have hdivides : ¬(binary .remainder left right).DividesByZero := fun h => hzero h.2
      have hquotient := Integer.fits_tdiv_iff hfits hzero
      rw [if_neg hzero, checked_eq]
      by_cases hleast : left.value = -2 ^ 31 ∧ right.value = -1
      · rw [if_neg (mt hquotient.mp (not_not.mpr hleast)), lastStep, if_neg, fault,
          if_neg hdivides]
        · rfl
        · exact fun h => h.2.1 ⟨rfl, hleast⟩
      · rw [if_pos (hquotient.mpr hleast), lastStep_of_checked hdivides]
        · rfl
        · exact fun h => hleast h.2

/-- Negating an integer is the last step of negating what it is the value of. -/
theorem negate_eq_lastStep {operand : Arithmetic} {n : Int32} (hn : n.toInt = operand.value) :
    UnaryOp.negate.apply (.int n) = (negate operand).lastStep := by
  rw [lastStep_of_checked id id]
  show checked (-n.toInt) = checked (-operand.value)
  rw [hn]

/-! ## Evaluation -/

/-- The first step that cannot be made, if there is one. -/
def stuck? (t : Arithmetic) : Option Arithmetic := t.steps.find? fun s => ¬s.Computes

/-- No step is stuck exactly if all of them compute. -/
theorem stuck?_eq_none_iff {t : Arithmetic} : t.stuck? = none ↔ ∀ s ∈ t.steps, s.Computes := by
  simp [stuck?]

/-- The step that is stuck is the first one that does not compute. -/
theorem stuck?_eq_some_iff {t s : Arithmetic} : t.stuck? = some s ↔
    ¬s.Computes ∧ ∃ before after, t.steps = before ++ s :: after ∧ ∀ s ∈ before, s.Computes := by
  simp [stuck?, List.find?_eq_some_iff_append]

/-- The last step is the first one that cannot be made if all those in front of it can. -/
theorem stuck?_of_steps {t : Arithmetic} {before : List Arithmetic}
    (h : t.steps = before ++ [t]) : t.stuck? =
      (before.find? fun s => ¬s.Computes).or (if t.Computes then none else some t) := by
  unfold stuck?
  rw [h, List.find?_append, List.find?_singleton]
  by_cases ht : t.Computes <;> simp [ht]

/-- What a computation comes to that is stuck at a given step, or at none. -/
def comesTo (t : Arithmetic) (m : Machine) : Option Arithmetic → EStateM.Result Stop Machine Value
  | none => .ok (.int (Int32.ofInt t.value)) m
  | some s => .error (.error s.fault) m

/-- What the last step gives is what the term comes to if all steps before it have computed. -/
theorem ofExcept_lastStep (t : Arithmetic) (m : Machine) :
    ofExcept t.lastStep m = t.comesTo m (if t.Computes then none else some t) := by
  unfold lastStep
  by_cases h : t.Computes
  · rw [if_pos h, if_pos h]
    rfl
  · rw [if_neg h, if_neg h]
    rfl

/-- A computation that is not stuck comes to an integer that has its value. -/
theorem toInt_ofInt_value {t : Arithmetic} (h : t.stuck? = none) :
    (Int32.ofInt t.value).toInt = t.value :=
  Integer.toInt_ofInt_of_fits (fits_value (stuck?_eq_none_iff.mp h))

/-- Evaluation makes one step after another and stops at the first one that cannot be made. -/
theorem expression_eq (bounds : Bounds) (t : Arithmetic) (m : Machine) :
    bounds.expression t.expr m = t.comesTo m t.stuck? := by
  unfold Bounds.expression
  -- The induction follows the evaluation: the first step that is stuck, from left to right, ends
  -- it.
  induction t with
  | literal n =>
    have hcomputes : (literal n).Computes := ⟨id, id, Integer.fits_toInt n⟩
    have hstuck : (literal n).stuck? = none := by
      rw [stuck?_eq_none_iff, steps, List.forall_mem_singleton]
      exact hcomputes
    rw [hstuck, comesTo, value, Int32.ofInt_toInt, expr, Expr.eval]
    rfl
  | paren inner ih =>
    have hstuck : (paren inner).stuck? = _ := stuck?_of_steps rfl
    rw [expr, Expr.eval, ih, hstuck, ← stuck?]
    cases hinner : inner.stuck? with
    -- The error of the inner expression passes through the parentheses.
    | some s => rfl
    | none =>
      rw [Option.none_or, if_pos (computes_paren (stuck?_eq_none_iff.mp hinner))]
      rfl
  | negate operand ih =>
    rw [expr, Expr.eval, stuck?_of_steps rfl, ← stuck?]
    cases hoperand : operand.stuck? with
    -- An error on the left comes first, whatever the right operand would do.
    | some s =>
      rw [hoperand] at ih
      exact bind_of_error ih
    | none =>
      rw [hoperand] at ih
      rw [bind_of_ok ih, negate_eq_lastStep (toInt_ofInt_value hoperand), Option.none_or]
      exact ofExcept_lastStep _ m
  | binary op left right ihl ihr =>
    rw [expr, Expr.eval, stuck?_of_steps rfl, List.find?_append, ← stuck?, ← stuck?]
    cases hleft : left.stuck? with
    | some s =>
      rw [hleft] at ihl
      exact bind_of_error ihl
    | none =>
      rw [hleft] at ihl
      rw [bind_of_ok ihl, Option.none_or]
      cases hright : right.stuck? with
      | some s =>
        rw [hright] at ihr
        exact bind_of_error ihr
      | none =>
        rw [hright] at ihr
        rw [bind_of_ok ihr, Option.none_or,
          apply_eq_lastStep op (toInt_ofInt_value hleft) (toInt_ofInt_value hright)]
        exact ofExcept_lastStep _ m

/-! ## Quotients and remainders -/

/-- The tree `(a / b) * b + a % b`. -/
def recombined (a b : Arithmetic) : Arithmetic :=
  binary .add (binary .multiply (paren (binary .divide a b)) b) (binary .remainder a b)

/-- A quotient and a remainder make up the dividend. -/
theorem value_recombined (a b : Arithmetic) : (recombined a b).value = a.value :=
  Int.tdiv_mul_add_tmod a.value b.value

/-- Where the quotient and the remainder can be computed, they can be put together again. -/
theorem computes_recombined {a b : Arithmetic}
    (hdivide : ∀ s ∈ (binary .divide a b).steps, s.Computes)
    (hremainder : ∀ s ∈ (binary .remainder a b).steps, s.Computes) :
    ∀ s ∈ (recombined a b).steps, s.Computes := by
  have hparts := hdivide
  rw [steps, List.forall_mem_append, List.forall_mem_append] at hparts
  obtain ⟨⟨ha, hb⟩, -⟩ := hparts
  -- The quotient and the remainder are defined, and so the product and the sum fit as well.
  have hparen := computes_paren hdivide
  have hproduct : (binary .multiply (paren (binary .divide a b)) b).Computes :=
    ⟨fun h => h.1, fun h => absurd h.1 (by decide), Integer.fits_tdiv_mul (fits_value ha) b.value⟩
  have hsum : (recombined a b).Computes :=
    ⟨fun h => h.1, fun h => absurd h.1 (by decide), value_recombined a b ▸ fits_value ha⟩
  have hquotient : ∀ s ∈ (paren (binary .divide a b)).steps, s.Computes :=
    List.forall_mem_append.mpr ⟨hdivide, List.forall_mem_singleton.mpr hparen⟩
  have hleft : ∀ s ∈ (binary .multiply (paren (binary .divide a b)) b).steps, s.Computes := by
    rw [steps, List.forall_mem_append, List.forall_mem_append, List.forall_mem_singleton]
    exact ⟨⟨hquotient, hb⟩, hproduct⟩
  rw [recombined, steps, List.forall_mem_append, List.forall_mem_append, List.forall_mem_singleton]
  exact ⟨⟨hleft, hremainder⟩, hsum⟩

/-- A computation comes to an integer if all of its steps can be made, and then to its value. -/
theorem expression_eq_ok_iff {bounds : Bounds} {t : Arithmetic} {m m' : Machine} {n : Int32} :
    bounds.expression t.expr m = .ok (.int n) m' ↔
      (∀ s ∈ t.steps, s.Computes) ∧ n.toInt = t.value ∧ m' = m := by
  rw [expression_eq, ← stuck?_eq_none_iff]
  cases hstuck : t.stuck? with
  | some s => simp [comesTo]
  | none =>
    rw [← toInt_ofInt_value hstuck, Int32.toInt_inj]
    simp [comesTo, eq_comm]

/-- Arithmetic is computed exactly or not at all. In every state, a tree of integer literals,
parentheses, signs and operators of arithmetic comes to an integer exactly if every step can be made
over the mathematical integers: none divides by zero or takes the remainder of the least integer by
minus one, and every result fits. Then the integer is the value of the tree, and otherwise the
evaluation fails at the first step that cannot be made. The state is left as it was. Where the
quotient and the remainder of two trees can both be computed, they make up the dividend. -/
theorem computed_exactly (bounds : Bounds) (t : Arithmetic) (m : Machine) :
    (∀ n m', bounds.expression t.expr m = .ok (.int n) m' ↔
      (∀ s ∈ t.steps, s.Computes) ∧ n.toInt = t.value ∧ m' = m) ∧
    ((∀ s ∈ t.steps, s.Computes) ∨ ∃ before s after, t.steps = before ++ s :: after ∧
      (∀ s ∈ before, s.Computes) ∧ ¬s.Computes ∧ bounds.expression t.expr m =
        .error (.error (if s.DividesByZero then .divisionByZero else .overflow)) m) ∧
    ∀ a b q r, bounds.expression (binary .divide a b).expr m = .ok (.int q) m →
      bounds.expression (binary .remainder a b).expr m = .ok (.int r) m →
      ∃ n, bounds.expression a.expr m = .ok (.int n) m ∧
        bounds.expression (recombined a b).expr m = .ok (.int n) m := by
  refine ⟨fun n m' => expression_eq_ok_iff, ?_, fun a b q r hq hr => ?_⟩
  · cases hstuck : t.stuck? with
    | none => exact .inl (stuck?_eq_none_iff.mp hstuck)
    | some s =>
      -- The steps split at the first one that cannot be computed, and that one names the error.
      obtain ⟨hs, before, after, hsteps, hbefore⟩ := stuck?_eq_some_iff.mp hstuck
      refine .inr ⟨before, s, after, hsteps, hbefore, hs, ?_⟩
      rw [expression_eq, hstuck]
      rfl
  · -- The division has computed, and therefore all steps of its dividend have.
    obtain ⟨hdivide, -, -⟩ := expression_eq_ok_iff.mp hq
    obtain ⟨hremainder, -, -⟩ := expression_eq_ok_iff.mp hr
    have ha : ∀ s ∈ a.steps, s.Computes := fun s hs => hdivide s (by simp [steps, hs])
    have hvalue := Integer.toInt_ofInt_of_fits (fits_value ha)
    refine ⟨Int32.ofInt a.value, expression_eq_ok_iff.mpr ⟨ha, hvalue, rfl⟩, ?_⟩
    refine expression_eq_ok_iff.mpr ⟨computes_recombined hdivide hremainder, ?_, rfl⟩
    rw [hvalue, value_recombined]

/-- The quotient of minus seven by two is cut off toward zero, the remainder is negative, and both
make up minus seven. -/
theorem computed_exactly_minusSeven :
    let bounds : Bounds := ⟨0, 0⟩
    let m : Machine := ⟨.initial, .unlimited, 0⟩
    let a : Arithmetic := negate (literal 7)
    let b : Arithmetic := literal 2
    bounds.expression (binary .divide a b).expr m = .ok (.int (-3)) m ∧
      bounds.expression (binary .remainder a b).expr m = .ok (.int (-1)) m ∧
      ∃ n, bounds.expression a.expr m = .ok (.int n) m ∧
        bounds.expression (recombined a b).expr m = .ok (.int n) m := by
  intro bounds m a b
  have hdivide : bounds.expression (binary .divide a b).expr m = .ok (.int (-3)) m :=
    ((computed_exactly bounds _ m).1 (-3) m).mpr ⟨by decide, by decide, rfl⟩
  have hremainder : bounds.expression (binary .remainder a b).expr m = .ok (.int (-1)) m :=
    ((computed_exactly bounds _ m).1 (-1) m).mpr ⟨by decide, by decide, rfl⟩
  exact ⟨hdivide, hremainder, (computed_exactly bounds a m).2.2 a b (-3) (-1) hdivide hremainder⟩

end Arithmetic

end Brisk
