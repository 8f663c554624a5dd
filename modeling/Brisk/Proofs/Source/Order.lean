import Brisk.Proofs.Source.Spells

/-!
# Pieces in reading order

The pieces of a source stand in the order of their positions: where they are laid out, the position
behind a piece is not before the one in front of it (`Position.le_after`), and it is further on if
the piece is a character. So what is left of a source starts no earlier than the source itself
(`Laid.suffix`), and behind a character that has been consumed.
-/

namespace Brisk

namespace Position

variable {p q r : Position}

/-- A position is at most another one if it is the same or stands before it. -/
instance : LE Position := ⟨fun p q => p < q ∨ p = q⟩

/-- A position is before another one on an earlier line, or further to the left on the same line. -/
theorem lt_iff : p < q ↔ p.line < q.line ∨ (p.line = q.line ∧ p.column < q.column) := Iff.rfl

/-- No position is before itself. -/
theorem lt_irrefl (p : Position) : ¬p < p := by
  rw [lt_iff]
  omega

/-- Positions are ordered one behind the other. -/
theorem lt_trans (h : p < q) (h' : q < r) : p < r := by
  rw [lt_iff] at *
  omega

/-- A position is not behind itself. -/
theorem le_refl (p : Position) : p ≤ p := .inr rfl

/-- A position is before everything that is not before something behind it. -/
theorem lt_of_lt_of_le (h : p < q) (h' : q ≤ r) : p < r := by
  rcases h' with h' | rfl
  · exact lt_trans h h'
  · exact h

/-- Positions that may be the same are ordered one behind the other. -/
theorem le_trans (h : p ≤ q) (h' : q ≤ r) : p ≤ r := by
  rcases h with h | rfl
  · exact .inl (lt_of_lt_of_le h h')
  · exact h'

/-- Behind a character is further on. -/
theorem lt_right (p : Position) : p < p.right := .inr ⟨rfl, Nat.lt_succ_self _⟩

/-- The next line is behind a position. -/
theorem lt_down (p : Position) : p < p.down := .inl (Nat.lt_succ_self _)

/-- The position behind a piece is not before the piece. -/
theorem le_after (p : Position) (piece : Piece) : p ≤ p.after piece := by
  cases piece with
  | char c => exact .inl (lt_right p)
  | lineBreak style => exact .inl (lt_down p)
  | undecodable => exact le_refl p

end Position

namespace Laid

variable {stop p : Position} {rest rest' : List Placed}

/-- The position behind pieces is not before the first of them. -/
theorem le (h : Laid stop p rest) : p ≤ stop := by
  induction rest generalizing p with
  | nil => exact .inr h
  | cons q rest ih => exact Position.le_trans (p.le_after q.piece) (ih h.2.2)

/-- What is left of laid pieces is laid, and starts no earlier than they do. -/
theorem suffix (h : Laid stop p rest) (hsuffix : rest' <:+ rest) :
    ∃ p', Laid stop p' rest' ∧ p ≤ p' := by
  induction rest generalizing p with
  | nil =>
    obtain rfl := List.suffix_nil.mp hsuffix
    exact ⟨p, h, Position.le_refl p⟩
  | cons q rest ih =>
    rcases List.suffix_cons_iff.mp hsuffix with rfl | hsuffix
    · exact ⟨p, h, Position.le_refl p⟩
    · -- Each piece lies behind the one in front of it.
      obtain ⟨p', hlaid, hle⟩ := ih h.2.2 hsuffix
      exact ⟨p', hlaid, Position.le_trans (p.le_after q.piece) hle⟩

end Laid

end Brisk
