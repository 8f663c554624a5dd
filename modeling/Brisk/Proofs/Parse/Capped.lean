import Brisk.Proofs.Parse.Reads

/-!
# Nesting is refused, and changes nothing else

A parser that may open more levels gives the same as one that may open fewer, unless the latter
reports that it would need another level (`program_capped`). That holds state by state, so it does
not matter what is consumed: `Capped max p p'` says it of two parsers, and it is closed under
sequencing. The parsers within a level are taken one by one, with those of the level further in as
parameters on both sides (`Nested.Capped`), and the levels are put together by induction.
-/

namespace Brisk.Parse

variable {α β : Type} {max : Nat}

/-- The first parser gives what the second does, or reports that nesting is deeper than `max`. -/
def Capped (max : Nat) (p p' : Parse α) : Prop :=
  ∀ s, p s = p' s ∨ ∃ position s', p s = .error (.invalid position (.nestingTooDeep max)) s'

section Capped

variable {p p' : Parse α}

/-- A parser gives what it gives itself. -/
theorem Capped.refl (p : Parse α) : Capped max p p := fun _ => .inl rfl

/-- A sequence is capped if its parts are: what the first part reports, the sequence reports. -/
theorem capped_bind {f f' : α → Parse β} (hp : Capped max p p')
    (hf : ∀ a, Capped max (f a) (f' a)) : Capped max (p >>= f) (p' >>= f') := by
  intro s
  show EStateM.bind p f s = EStateM.bind p' f' s ∨
    ∃ position s', EStateM.bind p f s = .error (.invalid position (.nestingTooDeep max)) s'
  unfold EStateM.bind
  -- The second parts are only compared where the first ones have ended in the same state.
  rcases hp s with heq | ⟨position, s', herror⟩
  · rw [← heq]
    cases p s with
    | ok a s₁ => exact hf a s₁
    | error e s₁ => exact .inl rfl
  · rw [herror]
    exact .inr ⟨position, s', rfl⟩

/-- What comes first is the same for parsers that do not open a level. -/
theorem capped_then {f f' : α → Parse β} (hf : ∀ a, Capped max (f a) (f' a)) :
    Capped max (p >>= f) (p >>= f') :=
  capped_bind (.refl p) hf

/-- What is made of a result is capped if the result is. -/
theorem capped_map {f : α → β} (hp : Capped max p p') : Capped max (f <$> p) (f <$> p') := by
  intro s
  show EStateM.map f p s = EStateM.map f p' s ∨
    ∃ position s', EStateM.map f p s = .error (.invalid position (.nestingTooDeep max)) s'
  unfold EStateM.map
  rcases hp s with heq | ⟨position, s', herror⟩
  · exact .inl (by rw [heq])
  · rw [herror]
    exact .inr ⟨position, s', rfl⟩

/-- A choice is capped if both branches are. -/
theorem capped_ite {c : Prop} [Decidable c] {q q' : Parse α} (hp : Capped max p p')
    (hq : Capped max q q') : Capped max (if c then p else q) (if c then p' else q') := by
  split
  · exact hp
  · exact hq

end Capped

/-- The parsers on one side that open a level give what those on the other side do, or report that
nesting is too deep. -/
structure Nested.Capped (max : Nat) (inner inner' : Nested) : Prop where
  expression : Parse.Capped max inner.expression inner'.expression
  block : Parse.Capped max inner.block inner'.block
  conditional : Parse.Capped max inner.conditional inner'.conditional

section Level

variable {inner inner' : Nested} (h : Nested.Capped max inner inner')
include h

/-! ## Expressions -/

/-- Arguments are capped if what is one level further in is. -/
theorem argumentList_capped (rs : List Lexed) :
    Capped max (argumentList inner rs) (argumentList inner' rs) := by
  induction rs with
  | nil => exact .refl _
  | cons r rs ih =>
    unfold argumentList
    refine capped_bind h.expression fun e => capped_then fun t => capped_ite ?_ (.refl _)
    exact capped_then fun _ => capped_bind ih fun es => .refl _

/-- Arguments in parentheses are capped if what is one level further in is. -/
theorem arguments_capped : Capped max (arguments inner) (arguments inner') := by
  unfold arguments
  refine capped_then fun _ => capped_then fun t => capped_ite (.refl _) ?_
  exact capped_then fun rs => capped_bind (argumentList_capped h rs) fun es => .refl _

/-- Arguments behind what may be called are capped. -/
theorem callSuffix_capped (callee : Expr) :
    Capped max (callSuffix inner callee) (callSuffix inner' callee) := by
  unfold callSuffix
  refine capped_then fun t => capped_ite ?_ (.refl _)
  exact capped_bind (arguments_capped h) fun es => .refl _

/-- An operand of the tightest level is capped. -/
theorem primary_capped : Capped max (primary inner) (primary inner') := by
  unfold primary
  refine capped_then fun t => ?_
  split
  · exact .refl _
  · -- What is no literal starts with a name, a parenthesis, a hash or a bracket.
    split
    · exact capped_then fun _ => callSuffix_capped h _
    · exact capped_then fun _ => capped_bind h.expression fun e =>
        capped_then fun _ => callSuffix_capped h _
    · exact capped_then fun _ => capped_then fun ps => capped_bind h.block fun body =>
        callSuffix_capped h _
    · exact capped_then fun _ => capped_bind h.expression fun callee => capped_then fun _ =>
        capped_bind (arguments_capped h) fun es => .refl _
    · exact .refl _

/-- An operand with signs in front is capped. -/
theorem unary_capped : Capped max (unary inner) (unary inner') := by
  unfold unary
  refine capped_then fun t => ?_
  split
  · exact capped_then fun _ => capped_bind (primary_capped h) fun e => .refl _
  · exact primary_capped h

/-- An operand with types behind is capped. -/
theorem cast_capped : Capped max (cast inner) (cast inner') := by
  unfold cast
  exact capped_bind (unary_capped h) fun operand => .refl _

omit h in
/-- A row of operators of a level is capped if its operands are. -/
theorem chain_capped {operand operand' : Parse Expr} (h : Capped max operand operand')
    (level : Nat) (rs : List Lexed) (left : Expr) :
    Capped max (chain level operand rs left) (chain level operand' rs left) := by
  -- The induction is on the lexemes that are left for the row.
  induction rs generalizing left with
  | nil => exact .refl _
  | cons r rs ih =>
    unfold chain
    refine capped_then fun t => ?_
    split
    · exact .refl _
    · exact capped_then fun _ => capped_bind h fun right => ih _

omit h in
/-- Rows of operators of all levels, one in the other, are capped if their operands are. -/
theorem ladder_capped {operand operand' : Parse Expr} (h : Capped max operand operand')
    (levels : List Nat) : Capped max (ladder operand levels) (ladder operand' levels) := by
  induction levels with
  | nil => exact h
  | cons level tighter ih =>
    unfold ladder
    exact capped_bind ih fun left => capped_then fun rs => chain_capped ih level rs left

/-- The value of an assignment is capped if what is one level further in is. -/
theorem assignment_capped (target : String) :
    Capped max (assignment inner target) (assignment inner' target) := by
  unfold assignment
  exact capped_bind h.expression fun value => .refl _

/-- An expression within its level is capped. -/
theorem expressionBody_capped : Capped max (expressionBody inner) (expressionBody inner') := by
  unfold expressionBody
  refine capped_then fun t => capped_ite ?_ ?_
  · exact capped_then fun _ => capped_then fun target => capped_then fun _ =>
      assignment_capped h target
  · refine capped_bind (ladder_capped (cast_capped h) _) fun left => capped_then fun t =>
      capped_ite ?_ (.refl _)
    split
    · exact capped_then fun _ => assignment_capped h _
    · exact .refl _

/-! ## Statements -/

/-- A condition is capped. -/
theorem condition_capped (k : Keyword) : Capped max (condition inner k) (condition inner' k) := by
  unfold condition
  refine capped_then fun _ => capped_then fun t => capped_ite ?_ (.refl _)
  exact capped_bind h.expression fun e => .refl _

/-- A statement is capped. -/
theorem statement_capped : Capped max (statement inner) (statement inner') := by
  unfold statement
  refine capped_then fun t => ?_
  split
  · exact capped_then fun _ => capped_then fun mutable => capped_then fun name =>
      capped_then fun _ => capped_bind h.expression fun value => .refl _
  · exact capped_then fun _ => capped_then fun name => capped_then fun ps =>
      capped_bind h.block fun body => .refl _
  · exact capped_then fun _ => capped_bind (condition_capped h .whileKey) fun test =>
      capped_bind h.block fun body => .refl _
  · exact capped_bind h.conditional fun c => .refl _
  · refine capped_then fun _ => capped_then fun t => capped_ite (.refl _) ?_
    exact capped_bind (capped_map h.expression) fun value => .refl _
  · exact .refl _
  · exact capped_bind h.expression fun e => .refl _

/-- The statements of a block are capped. -/
theorem blockStatements_capped (rs : List Lexed) :
    Capped max (blockStatements inner rs) (blockStatements inner' rs) := by
  induction rs with
  | nil => exact .refl _
  -- The statements of a block are parsed within the same limit, one after the other.
  | cons r rs ih =>
    unfold blockStatements
    refine capped_then fun t => ?_
    split
    · exact .refl _
    · exact .refl _
    · exact capped_bind (statement_capped h) fun st => capped_bind ih fun ss => .refl _

/-- A block within its level is capped. -/
theorem blockBody_capped : Capped max (blockBody inner) (blockBody inner') := by
  unfold blockBody
  exact capped_then fun _ => capped_then fun rs => blockStatements_capped h rs

/-- What follows a conditional is capped. -/
theorem alternative_capped : Capped max (alternative inner) (alternative inner') := by
  unfold alternative
  refine capped_then fun t => capped_ite ?_ (.refl _)
  refine capped_then fun _ => capped_then fun t => ?_
  split
  · exact capped_bind h.conditional fun c => .refl _
  · exact capped_bind h.block fun body => .refl _
  · exact .refl _

/-- A conditional within its level is capped. -/
theorem conditionalBody_capped : Capped max (conditionalBody inner) (conditionalBody inner') := by
  unfold conditionalBody
  exact capped_then fun _ => capped_bind (condition_capped h .ifKey) fun test =>
    capped_bind h.block fun body => capped_bind (alternative_capped h) fun otherwise => .refl _

/-- The statements of a program are capped. -/
theorem topStatements_capped (rs : List Lexed) :
    Capped max (topStatements inner rs) (topStatements inner' rs) := by
  induction rs with
  | nil => exact .refl _
  | cons r rs ih =>
    unfold topStatements
    refine capped_then fun t => capped_ite (.refl _) ?_
    exact capped_bind (statement_capped h) fun st => capped_bind ih fun ss => .refl _

end Level

/-! ## Levels and programs -/

/-- The parsers that may open more levels give the same until another level is needed. -/
theorem levels_capped (max max' : Nat) {n n' : Nat} (h : n ≤ n') :
    Nested.Capped max ⟨expression max n, block max n, conditional max n⟩
      ⟨expression max' n', block max' n', conditional max' n'⟩ := by
  induction n generalizing n' with
  | zero =>
    -- There is no level to open, which is reported without looking at a token.
    exact ⟨fun s => .inr ⟨_, s, rfl⟩, fun s => .inr ⟨_, s, rfl⟩, fun s => .inr ⟨_, s, rfl⟩⟩
  | succ n ih =>
    obtain ⟨n', rfl⟩ : ∃ m, n' = m + 1 := ⟨n' - 1, by omega⟩
    have hinner := ih (Nat.le_of_succ_le_succ h)
    exact ⟨expressionBody_capped hinner, blockBody_capped hinner, conditionalBody_capped hinner⟩

/-- A program that may nest deeper is parsed alike, unless it is refused for its nesting. -/
theorem program_capped {max max' : Nat} (h : max ≤ max') :
    Capped max (program max) (program max') := by
  unfold program
  exact capped_then fun rs =>
    capped_bind (topStatements_capped (levels_capped max max' h) rs) fun ss => .refl _

end Brisk.Parse
