/-! # Positions in a source text

A position names a character by its line and its column, both counted from one. Columns count
characters and not bytes.
-/

namespace Brisk

/-- The line and the column of a character, both counted from one. -/
structure Position where
  line : Nat
  column : Nat
  deriving DecidableEq, Repr

namespace Position

/-- Where every text starts. -/
def start : Position := ⟨1, 1⟩

/-- A position is written as its line and its column with a colon between them. -/
def text (p : Position) : String := s!"{p.line}:{p.column}"

/-- The position one character further on the same line. -/
def right (p : Position) : Position := ⟨p.line, p.column + 1⟩

/-- The first position of the next line. -/
def down (p : Position) : Position := ⟨p.line + 1, 1⟩

/-- The order in which a text is read: by lines, and within a line by columns. -/
protected def lt (p q : Position) : Prop :=
  p.line < q.line ∨ (p.line = q.line ∧ p.column < q.column)

instance : LT Position := ⟨Position.lt⟩

instance (p q : Position) : Decidable (p < q) :=
  inferInstanceAs (Decidable (p.line < q.line ∨ (p.line = q.line ∧ p.column < q.column)))

end Position

end Brisk
