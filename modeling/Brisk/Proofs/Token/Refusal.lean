import Brisk.Proofs.Token.Stream

/-!
# Limits refuse, and change nothing else

With wider limits a scan gives the same as with narrower ones, unless the narrower ones refuse what
it scans; and then the error says which of them it was, and how far it reaches (`Exceeds`). Both
scans look at the same pieces in step: a bound is looked at in the loops for words, strings and
comments only, and where it is not exceeded the loops go on alike (`Scan.filters_of_bound`). The
limit on nesting is not looked at here (`Source.lexemes_nesting`).
-/

namespace Brisk

namespace Limits

/-- Limits are wider than others if none of their bounds is lower. -/
instance : LE Limits where
  le limits limits' := limits.identifier ≤ limits'.identifier ∧ limits.string ≤ limits'.string ∧
    limits.comment ≤ limits'.comment ∧ limits.nesting ≤ limits'.nesting

instance (limits limits' : Limits) : Decidable (limits ≤ limits') :=
  inferInstanceAs (Decidable (limits.identifier ≤ limits'.identifier ∧
    limits.string ≤ limits'.string ∧ limits.comment ≤ limits'.comment ∧
    limits.nesting ≤ limits'.nesting))

variable {limits limits' limits'' : Limits}

/-- Limits are as wide as themselves. -/
theorem le_refl (limits : Limits) : limits ≤ limits :=
  ⟨Nat.le_refl _, Nat.le_refl _, Nat.le_refl _, Nat.le_refl _⟩

/-- Limits are wider one behind the other. -/
theorem le_trans (h : limits ≤ limits') (h' : limits' ≤ limits'') : limits ≤ limits'' :=
  ⟨Nat.le_trans h.1 h'.1, Nat.le_trans h.2.1 h'.2.1, Nat.le_trans h.2.2.1 h'.2.2.1,
    Nat.le_trans h.2.2.2 h'.2.2.2⟩

/-- Any two limits are at most some others. -/
theorem exists_le_le (limits limits' : Limits) : ∃ wide, limits ≤ wide ∧ limits' ≤ wide :=
  ⟨⟨max limits.identifier limits'.identifier, max limits.string limits'.string,
      max limits.comment limits'.comment, max limits.nesting limits'.nesting⟩,
    ⟨Nat.le_max_left _ _, Nat.le_max_left _ _, Nat.le_max_left _ _, Nat.le_max_left _ _⟩,
    ⟨Nat.le_max_right _ _, Nat.le_max_right _ _, Nat.le_max_right _ _, Nat.le_max_right _ _⟩⟩

end Limits

/-- Whether a fault is that one of the limits is exceeded. -/
def LexFault.Exceeds (limits : Limits) : LexFault → Prop
  | identifierTooLong max => max = limits.identifier
  | stringTooLong max => max = limits.string
  | commentTooLong max => max = limits.comment
  | unterminatedString | unterminatedComment | invalidEscape _ | integerOutOfRange _
  | notAToken _ => False

/-- Whether an error is that one of the limits is exceeded. -/
def LexError.Exceeds (limits : Limits) : LexError → Prop
  | invalid _ fault => fault.Exceeds limits
  | read _ => False

namespace Scan

variable {α : Type} {limits limits' : Limits} {edge : Edge} {start : Position}
  {rest : List Placed} {o o' : Outcome α}

/-- The first outcome is the second, or that a limit is exceeded. -/
def Filters (limits : Limits) (o o' : Outcome α) : Prop :=
  o = o' ∨ ∃ e, o.1 = .error e ∧ e.Exceeds limits

/-- The same outcome is filtered. -/
theorem Filters.refl (o : Outcome α) : Filters limits o o := .inl rfl

/-- An error of a narrower limit is filtered. -/
theorem filters_error {e : LexError} (h : e.Exceeds limits) :
    Filters limits (.error e, rest) o' := .inr ⟨e, rfl, h⟩

/-- A limit is exceeded at the edge, unless the source has failed there. -/
theorem filters_atEdge {e : LexError} (h : e.Exceeds limits) (atEnd : Except LexError α) :
    Filters limits (atEdge edge (.error e)) (atEdge edge atEnd) := by
  unfold atEdge
  cases edge.failure with
  | none => exact filters_error h
  | some cause => exact .refl _

/-- Where the narrower bound is kept the wider one is, and where it is not there is an error. -/
theorem filters_of_bound {bound bound' length : Nat} {refused refused' : Outcome α}
    (hbound : bound ≤ bound') (hrefused : Filters limits refused refused')
    (hrefused' : Filters limits refused o') (h : Filters limits o o') :
    Filters limits (if bound < length then refused else o)
      (if bound' < length then refused' else o') := by
  by_cases hlength : bound < length
  · rw [if_pos hlength]
    split
    · exact hrefused
    · exact hrefused'
  · rw [if_neg hlength, if_neg (by omega)]
    exact h

/-- A word is taken within both limits or refused by the narrower ones. -/
theorem word_filters (h : limits ≤ limits') (c : Char) :
    Filters limits (word limits edge start c rest) (word limits' edge start c rest) := by
  have hbound := h.1
  unfold word
  simp only
  split
  · exact filters_error rfl
  next hlength =>
    rw [if_neg]
    · exact .refl _
    · rintro ⟨hne, hlt⟩
      exact hlength ⟨hne, by omega⟩

/-- A string is taken within both limits or refused by the narrower ones. -/
theorem string_filters (h : limits ≤ limits') (length : Nat) (content : List Char)
    (rest : List Placed) : Filters limits (string limits edge start length content rest)
      (string limits' edge start length content rest) := by
  have hbound := h.2.1
  have hexceeds : LexError.Exceeds limits (.invalid start (.stringTooLong limits.string)) := rfl
  fun_induction string limits edge start length content rest with
  | case1 | case2 | case3 | case4 | case5 | case6 =>
    -- These end without looking at a bound.
    rw [string.eq_def limits']
    simp_all [Filters]
  | case7 | case9 => exact filters_error hexceeds
  -- Behind an escape sequence or another character, what the narrower bound allows the wider one
  -- does too, and both scans go on.
  | case8 length content p q more e he d hd hlength hp hquote ih =>
    rw [string.eq_def limits']
    simp only [hp, he, hd, if_neg hquote, if_true]
    rw [if_neg (by omega)]
    exact ih
  | case10 length content p rest c hp hquote hescape hlength ih =>
    rw [string.eq_def limits']
    simp only [hp, if_neg hquote, if_neg hescape]
    rw [if_neg (by omega)]
    exact ih

/-- Every token is taken within both limits or refused by the narrower ones. -/
theorem token_filters (h : limits ≤ limits') (c : Char) :
    Filters limits (token limits edge start c rest) (token limits' edge start c rest) := by
  unfold token
  split
  · exact string_filters h 0 [] rest
  split
  · exact .refl _
  split
  · exact word_filters h c
  · exact .refl _

mutual

/-- What stands in front of a token is skipped within both limits or refused by the narrower
ones. -/
theorem skip_filters (h : limits ≤ limits') : ∀ rest : List Placed,
    Filters limits (skip limits edge rest) (skip limits' edge rest)
  | [] => by
    rw [skip, skip]
    exact .refl _
  | p :: rest => by
    rw [skip, skip]
    cases p.piece with
    | undecodable => exact .refl _
    | lineBreak style => exact skip_filters h rest
    | char c =>
      simp only
      split
      · exact skip_filters h rest
      split
      · -- A slash opens a comment if a second one or a star is behind it.
        match rest with
        | [] => exact .refl _
        | q :: more =>
          simp only
          split
          · exact skipLine_filters h p.position 0 more
          split
          · exact skipBlock_filters h p.position 0 more
          · exact .refl _
      · exact .refl _

/-- A comment to the end of the line is skipped within both limits or refused by the narrower
ones. -/
theorem skipLine_filters (h : limits ≤ limits') (start : Position) :
    ∀ (length : Nat) (rest : List Placed), Filters limits
      (skipLine limits edge start length rest) (skipLine limits' edge start length rest)
  | length, [] => by
    rw [skipLine, skipLine]
    exact .refl _
  | length, p :: rest => by
    rw [skipLine, skipLine]
    cases p.piece with
    | undecodable => exact .refl _
    | lineBreak style => exact skip_filters h rest
    | char c =>
      exact filters_of_bound h.2.2.1 (filters_error rfl) (filters_error rfl)
        (skipLine_filters h start (length + 1) rest)

/-- A comment between its marks is skipped within both limits or refused by the narrower ones. -/
theorem skipBlock_filters (h : limits ≤ limits') (start : Position) :
    ∀ (length : Nat) (rest : List Placed), Filters limits
      (skipBlock limits edge start length rest) (skipBlock limits' edge start length rest)
  | length, [] => by
    rw [skipBlock, skipBlock]
    exact .refl _
  | length, p :: rest => by
    rw [skipBlock.eq_def limits, skipBlock.eq_def limits']
    simp only
    split
    · exact .refl _
    split
    · match rest with
      | [] =>
        -- A star at the very end counts as a character before the comment is found to be open.
        have hexceeds : LexError.Exceeds limits (.invalid start (.commentTooLong limits.comment)) :=
          rfl
        exact filters_of_bound h.2.2.1 (filters_atEdge hexceeds _) (filters_atEdge hexceeds _)
          (.refl _)
      | q :: more =>
        simp only
        split
        · exact .refl _
        split
        · exact skip_filters h more
        · exact filters_of_bound h.2.2.1 (filters_error rfl) (filters_error rfl)
            (skipBlock_filters h start (length + 1) (q :: more))
    · exact filters_of_bound h.2.2.1 (filters_error rfl) (filters_error rfl)
        (skipBlock_filters h start (length + 1) rest)

end

/-- With wider limits a scan is the same, unless the narrower ones are exceeded. -/
theorem lexeme_filters (h : limits ≤ limits') (edge : Edge) (rest : List Placed) :
    Filters limits (lexeme limits edge rest) (lexeme limits' edge rest) := by
  unfold lexeme
  have hskip : Filters limits (skip limits edge rest) (skip limits' edge rest) :=
    skip_filters h rest
  -- Skipping is the same, or is refused by a narrower limit.
  rcases hskip with hskip | ⟨e, hskip, he⟩
  · rw [← hskip]
    match skip limits edge rest with
    | (.error e, more) => exact .refl _
    | (.ok none, more) => exact .refl _
    | (.ok (some (c, start)), more) =>
      -- The token is the same, or is refused by a narrower limit.
      simp only
      have htoken : Filters limits (token limits edge start c more)
          (token limits' edge start c more) := token_filters h c
      rcases htoken with htoken | ⟨e, htoken, he⟩
      · rw [htoken]
        exact .refl _
      · rw [htoken]
        exact filters_error he
  · match hfound : skip limits edge rest with
    | (.error e', more) =>
      rw [hfound] at hskip
      rw [Except.error.inj hskip]
      exact filters_error he
    | (.ok _, more) =>
      rw [hfound] at hskip
      exact absurd hskip (by simp)

end Scan

/-- With wider limits the next token of a source is the same, unless the narrower ones are
exceeded. -/
theorem Source.lexeme_filters {limits limits' : Limits} (h : limits ≤ limits') (src : Source) :
    src.lexeme limits = src.lexeme limits' ∨
      ∃ e, (src.lexeme limits).1 = .error e ∧ e.Exceeds limits := by
  rcases Scan.lexeme_filters h src.edge src.ahead with heq | hexceeds
  · refine .inl ?_
    unfold Source.lexeme
    rw [heq]
  · exact .inr hexceeds

/-! ## The limit on nesting

No scan looks at it, so the tokens of a source are the same whatever it is.
-/

section Nesting

variable {limits : Limits} {edge : Edge} {start : Position} (n : Nat)

namespace Scan

mutual

/-- What stands in front of a token is skipped whatever the limit on nesting is. -/
theorem skip_nesting : ∀ rest : List Placed,
    skip { limits with nesting := n } edge rest = skip limits edge rest
  | [] => by rw [skip, skip]
  | p :: rest => by
    rw [skip, skip, skip_nesting rest]
    cases rest with
    | nil => rfl
    | cons q more =>
      simp only [skipLine_nesting p.position 0 more, skipBlock_nesting p.position 0 more]

/-- A comment to the end of the line is skipped whatever the limit on nesting is. -/
theorem skipLine_nesting (start : Position) : ∀ (length : Nat) (rest : List Placed),
    skipLine { limits with nesting := n } edge start length rest =
      skipLine limits edge start length rest
  | length, [] => by rw [skipLine, skipLine]
  | length, p :: rest => by
    rw [skipLine, skipLine, skip_nesting rest, skipLine_nesting start (length + 1) rest]

/-- A comment between its marks is skipped whatever the limit on nesting is. -/
theorem skipBlock_nesting (start : Position) : ∀ (length : Nat) (rest : List Placed),
    skipBlock { limits with nesting := n } edge start length rest =
      skipBlock limits edge start length rest
  | length, [] => by rw [skipBlock, skipBlock]
  | length, p :: rest => by
    rw [skipBlock.eq_def { limits with nesting := n }, skipBlock.eq_def limits]
    simp only [skipBlock_nesting start (length + 1) rest]
    cases rest with
    | nil => rfl
    | cons q more =>
      simp only [skip_nesting more, skipBlock_nesting start (length + 1) (q :: more)]

end

/-- A string is scanned whatever the limit on nesting is. -/
theorem string_nesting (length : Nat) (content : List Char) (rest : List Placed) :
    string { limits with nesting := n } edge start length content rest =
      string limits edge start length content rest := by
  fun_induction string limits edge start length content rest with
  -- Only the two cases that go on with the string look at it with the other limits.
  | case8 length content p q more e he d hd hlength hp hquote ih =>
    rw [string.eq_def]
    simp only [hp, he, hd, if_neg hquote, if_true, if_neg hlength]
    exact ih
  | case10 length content p rest c hp hquote hescape hlength ih =>
    rw [string.eq_def]
    simp only [hp, if_neg hquote, if_neg hescape, if_neg hlength]
    exact ih
  | case1 => rw [string]
  | case2 | case3 | case4 | case5 | case6 | case7 | case9 =>
    rw [string.eq_def]
    simp_all

/-- What comes next, be it a token or the end of the source, is scanned whatever the limit on
nesting is. -/
theorem lexeme_nesting (rest : List Placed) :
    lexeme { limits with nesting := n } edge rest = lexeme limits edge rest := by
  have htoken : ∀ start c more, token { limits with nesting := n } edge start c more =
      token limits edge start c more := by
    intro start c more
    unfold token
    rw [string_nesting]
    rfl
  unfold lexeme
  rw [skip_nesting]
  simp only [htoken]

end Scan

/-- The next token of a source is the same whatever the limit on nesting is. -/
theorem Source.lexeme_nesting (src : Source) :
    src.lexeme { limits with nesting := n } = src.lexeme limits := by
  unfold Source.lexeme
  rw [Scan.lexeme_nesting]

/-- All tokens of a source are the same whatever the limit on nesting is. -/
theorem Source.lexemes_nesting (src : Source) :
    src.lexemes { limits with nesting := n } = src.lexemes limits := by
  have hlexed : ∀ (bound : Nat) (src : Source),
      src.lexed { limits with nesting := n } bound = src.lexed limits bound := by
    intro bound
    induction bound with
    | zero => exact fun _ => rfl
    | succ bound ih =>
      intro src
      unfold Source.lexed
      simp only [lexeme_nesting, ih]
  unfold Source.lexemes
  rw [hlexed, lexeme_nesting]

end Nesting

end Brisk
