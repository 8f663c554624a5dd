import Brisk.Token.Lexer

/-!
# Scanning makes progress

A scan leaves a suffix of the pieces that it was given, and a shorter one if it was given any
(`lexeme_progress`), whether it finds a token or an error. Every branch of the scanning functions
either consumes pieces from the front or stops where it is, so the proof follows their recursion,
and the functions that skip comments are treated together.
-/

namespace Brisk.Scan

variable {limits : Limits} {edge : Edge}

/-- At the edge no pieces are left. -/
theorem atEdge_suffix {α : Type} (atEnd : Except LexError α) (rest : List Placed) :
    (atEdge edge atEnd).2 <:+ rest := by
  unfold atEdge
  split <;> exact List.nil_suffix

/-- Looking at the next character drops at most a line that cannot be decoded. -/
theorem withNext_suffix {α : Type} {rest : List Placed} {go : Option Char → List Placed → Outcome α}
    (h : ∀ c, (go c rest).2 <:+ rest) : (withNext edge rest go).2 <:+ rest := by
  unfold withNext Edge.peek
  -- Looking at the next piece consumes it only if it cannot be decoded.
  cases rest with
  | nil =>
    cases hclose : edge.close (none : Option Char) with
    | ok c => exact h c
    | error e => exact List.suffix_refl []
  | cons p rest =>
    cases hraw : p.piece.raw? with
    | some c =>
      simp only [hraw]
      exact h (some c)
    | none =>
      simp only [hraw]
      exact List.suffix_cons p rest

mutual

/-- Skipping what stands in front of a token consumes at least one piece, if there is one. -/
theorem skip_suffix : ∀ rest : List Placed, (skip limits edge rest).2 <:+ rest.drop 1
  | [] => by
    unfold skip
    exact atEdge_suffix _ _
  | p :: rest => by
    have hskip : (skip limits edge rest).2 <:+ rest :=
      (skip_suffix rest).trans (List.drop_suffix 1 rest)
    show (skip limits edge (p :: rest)).2 <:+ rest
    unfold skip
    cases hp : p.piece with
    | undecodable => exact List.suffix_refl rest
    | lineBreak style => exact hskip
    | char c =>
      simp only
      split
      · exact hskip
      split
      · -- A slash opens a comment if a second one or a star is behind it.
        match rest with
        | [] => exact List.suffix_refl []
        | q :: more =>
          simp only
          split
          · exact (skipLine_suffix p.position 0 more).trans (List.suffix_cons q more)
          split
          · exact (skipBlock_suffix p.position 0 more).trans (List.suffix_cons q more)
          · exact List.suffix_refl (q :: more)
      · exact List.suffix_refl rest

/-- A comment to the end of the line is skipped from the front. -/
theorem skipLine_suffix (start : Position) : ∀ (length : Nat) (rest : List Placed),
    (skipLine limits edge start length rest).2 <:+ rest
  | length, [] => by
    unfold skipLine
    exact atEdge_suffix _ _
  | length, p :: rest => by
    have hskip : (skip limits edge rest).2 <:+ rest :=
      (skip_suffix rest).trans (List.drop_suffix 1 rest)
    refine List.IsSuffix.trans ?_ (List.suffix_cons p rest)
    unfold skipLine
    cases hp : p.piece with
    -- Whatever is found, the piece in front has been consumed.
    | undecodable => exact List.suffix_refl rest
    | lineBreak style => exact hskip
    | char c =>
      simp only
      split
      · exact List.suffix_refl rest
      · exact skipLine_suffix start (length + 1) rest

/-- A comment between its marks is skipped from the front. -/
theorem skipBlock_suffix (start : Position) : ∀ (length : Nat) (rest : List Placed),
    (skipBlock limits edge start length rest).2 <:+ rest
  | length, [] => by
    unfold skipBlock
    exact atEdge_suffix _ _
  | length, p :: rest => by
    refine List.IsSuffix.trans ?_ (List.suffix_cons p rest)
    unfold skipBlock
    split
    · exact List.suffix_refl rest
    split
    · match rest with
      -- At the end of the source nothing is left.
      | [] =>
        simp only
        split <;> exact atEdge_suffix _ _
      | q :: more =>
        simp only
        split
        · exact List.suffix_cons q more
        split
        · have hskip : (skip limits edge more).2 <:+ more :=
            (skip_suffix more).trans (List.drop_suffix 1 more)
          exact hskip.trans (List.suffix_cons q more)
        split
        · exact List.suffix_refl (q :: more)
        · exact skipBlock_suffix start (length + 1) (q :: more)
    · split
      · exact List.suffix_refl rest
      · exact skipBlock_suffix start (length + 1) rest

end

/-- What is behind a run is what is left of the pieces. -/
theorem run_suffix (ofClass : Char → Bool) (rest : List Placed) :
    (run ofClass rest).2 <:+ rest := by
  induction rest with
  | nil => exact List.suffix_refl []
  | cons p rest ih =>
    unfold run
    split
    · split
      · exact ih.trans (List.suffix_cons p rest)
      · exact List.suffix_refl (p :: rest)
    · exact List.suffix_refl (p :: rest)

/-- A word is scanned from the front. -/
theorem word_suffix (start : Position) (c : Char) (rest : List Placed) :
    (word limits edge start c rest).2 <:+ rest := by
  unfold word
  simp only
  split
  · exact List.drop_suffix _ rest
  · refine List.IsSuffix.trans (withNext_suffix ?_) (run_suffix continuesWord rest)
    intro _
    exact List.suffix_refl _

/-- A number is scanned from the front. -/
theorem number_suffix (start : Position) (c : Char) (rest : List Placed) :
    (number edge start c rest).2 <:+ rest := by
  unfold number
  simp only
  refine List.IsSuffix.trans (withNext_suffix ?_) (run_suffix Char.isDigit rest)
  intro next
  split
  · refine List.IsSuffix.trans (withNext_suffix ?_)
      ((run_suffix Char.isDigit _).trans (List.drop_suffix 1 _))
    intro _
    exact List.suffix_refl _
  · exact List.suffix_refl _

/-- A string is scanned from the front. -/
theorem string_suffix (start : Position) : ∀ (length : Nat) (content : List Char)
    (rest : List Placed), (string limits edge start length content rest).2 <:+ rest
  | length, content, [] => by
    unfold string
    exact atEdge_suffix _ _
  | length, content, p :: rest => by
    refine List.IsSuffix.trans ?_ (List.suffix_cons p rest)
    unfold string
    -- Whatever the first character is, it has been consumed.
    cases hp : p.piece.char? with
    | none => exact List.suffix_refl rest
    | some c =>
      simp only
      split
      · exact List.suffix_refl rest
      split
      · match rest with
        | [] =>
          exact atEdge_suffix _ _
        | q :: more =>
          -- An escape consumes the character behind the backslash as well.
          refine List.IsSuffix.trans ?_ (List.suffix_cons q more)
          simp only
          cases q.piece.char? with
          | none => exact List.suffix_refl more
          | some e =>
            simp only
            cases unescape? e with
            | none => exact List.suffix_refl more
            | some d =>
              simp only
              split
              · exact List.suffix_refl more
              · exact string_suffix start (length + 1) (d :: content) more
      · split
        · exact List.suffix_refl rest
        · exact string_suffix start (length + 1) (c :: content) rest

/-- A symbol is scanned from the front. -/
theorem symbol_suffix (start : Position) (c : Char) (rest : List Placed) :
    (symbol edge start c rest).2 <:+ rest := by
  unfold symbol
  split
  · refine withNext_suffix ?_
    intro next
    split
    · exact List.drop_suffix 1 rest
    · exact List.suffix_refl rest
  · exact List.suffix_refl rest

/-- Every token is scanned from the front. -/
theorem token_suffix (start : Position) (c : Char) (rest : List Placed) :
    (token limits edge start c rest).2 <:+ rest := by
  unfold token
  split
  · exact string_suffix start 0 [] rest
  split
  · exact number_suffix start c rest
  split
  · exact word_suffix start c rest
  · exact symbol_suffix start c rest

/-- A scan consumes a piece at least, if there is one, and what it leaves is what stands behind. -/
theorem lexeme_progress (limits : Limits) (edge : Edge) (rest : List Placed) :
    (lexeme limits edge rest).2 <:+ rest.drop 1 := by
  have hskip : (skip limits edge rest).2 <:+ rest.drop 1 := skip_suffix rest
  unfold lexeme
  -- The token consumes what it is made of behind what has been skipped.
  split
  next e more h =>
    rw [h] at hskip
    exact hskip
  next more h =>
    rw [h] at hskip
    exact hskip
  next c start more h =>
    rw [h] at hskip
    exact (token_suffix start c more).trans hskip

end Brisk.Scan
