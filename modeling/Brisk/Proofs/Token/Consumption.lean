import Brisk.Proofs.Source.Order
import Brisk.Proofs.Token.Progress

/-!
# What a scan has consumed

Whatever a scan names a place for, a token or a fault, starts with a character at that place, which
the scan has consumed (`Scan.lexeme_consumes`). A line that cannot be decoded is reported without a
place, and so is the end of the source.

The faults of a token are reported where the token starts (`Scan.token_faults`), and those of a
comment where the comment does, so the functions that skip comments name either the place that they
were given or one further on.
-/

namespace Brisk

/-- The place that a scan names: that of what it has found, if there is any, or of a fault. -/
def Scan.place? {α : Type} (found? : α → Option Position) : Except LexError α → Option Position
  | .ok a => found? a
  | .error e => e.position?

/-- The pieces at the front of `rest`, up to `rest'`, hold a character that stands at `q`. -/
def Consumes (rest : List Placed) (q : Position) (rest' : List Placed) : Prop :=
  ∃ c more, ⟨.char c, q⟩ :: more <:+ rest ∧ rest' <:+ more

namespace Consumes

variable {rest rest' rest₀ : List Placed} {p q stop : Position}

/-- What has been consumed of pieces has been consumed of more of them. -/
theorem mono (h : Consumes rest q rest') (hsuffix : rest <:+ rest₀) : Consumes rest₀ q rest' := by
  obtain ⟨c, more, hfront, hback⟩ := h
  exact ⟨c, more, hfront.trans hsuffix, hback⟩

/-- What has been consumed stays so when more is. -/
theorem trans (h : Consumes rest q rest') (hsuffix : rest₀ <:+ rest') : Consumes rest q rest₀ := by
  obtain ⟨c, more, hfront, hback⟩ := h
  exact ⟨c, more, hfront, hsuffix.trans hback⟩

/-- The character is among the pieces that have been consumed. -/
theorem mem {consumed : List Placed} (h : Consumes (consumed ++ rest') q rest') :
    ∃ c, ⟨.char c, q⟩ ∈ consumed := by
  obtain ⟨c, more, ⟨front, hfront⟩, ⟨back, hback⟩⟩ := h
  refine ⟨c, ?_⟩
  rw [← hback, ← List.cons_append, ← List.append_assoc] at hfront
  rw [← List.append_cancel_right hfront]
  exact List.mem_append_right front List.mem_cons_self

/-- Behind the character the source goes on further on. -/
theorem lt (h : Consumes rest q rest') (hlaid : Laid stop p rest) :
    p ≤ q ∧ ∃ p', Laid stop p' rest' ∧ q < p' := by
  obtain ⟨c, more, hfront, hback⟩ := h
  obtain ⟨p₁, ⟨hplace, -, hmore⟩, hle⟩ := hlaid.suffix hfront
  obtain ⟨p', hlaid', hle'⟩ := hmore.suffix hback
  have hq : p₁ = q := hplace.symm
  subst hq
  exact ⟨hle, p', hlaid', Position.lt_of_lt_of_le (Position.lt_right p₁) hle'⟩

end Consumes

namespace Scan

variable {limits : Limits} {edge : Edge} {start : Position} {rest : List Placed}

/-! ## Tokens -/

/-- Whether the only place of a fault is `start`. -/
def FaultsAt {α : Type} (start : Position) (r : Except LexError α) : Prop :=
  ∀ q, place? (fun _ => none) r = some q → q = start

section FaultsAt

variable {α : Type}

/-- What is no fault names no place. -/
theorem faultsAt_ok (a : α) : FaultsAt start (.ok a) := by
  intro q h
  exact absurd h (by simp [place?])

/-- A fault of reading names no place. -/
theorem faultsAt_read (cause : ReadError) : FaultsAt start (.error (.read cause) : Except _ α) := by
  intro q h
  exact absurd h (by simp [place?, LexError.position?])

/-- A fault at the start names the start. -/
theorem faultsAt_invalid (fault : LexFault) :
    FaultsAt start (.error (.invalid start fault) : Except _ α) := by
  intro q h
  exact (Option.some.inj h).symm

/-- At the edge of the source, what is said there is said, or a fault of reading. -/
theorem faultsAt_atEdge {atEnd : Except LexError α} (h : FaultsAt start atEnd) :
    FaultsAt start (atEdge edge atEnd).1 := by
  unfold atEdge
  split
  · exact faultsAt_read _
  · exact h

/-- What is done with the next character is done for every character that it may be, or there is a
fault of reading. -/
theorem faultsAt_withNext {go : Option Char → List Placed → Outcome α}
    (h : ∀ next rest, FaultsAt start (go next rest).1) :
    FaultsAt start (withNext edge rest go).1 := by
  unfold withNext
  split
  · exact faultsAt_read _
  · exact h _ _

end FaultsAt

/-- A word that is refused is refused where it starts. -/
theorem word_faults (c : Char) : FaultsAt start (word limits edge start c rest).1 := by
  unfold word
  simp only
  split
  · exact faultsAt_invalid _
  · exact faultsAt_withNext fun _ _ => faultsAt_ok _

/-- A number that is refused is refused where it starts. -/
theorem number_faults (c : Char) : FaultsAt start (number edge start c rest).1 := by
  unfold number
  simp only
  refine faultsAt_withNext fun next rest => ?_
  split
  · exact faultsAt_withNext fun _ _ => faultsAt_ok _
  · show FaultsAt start (integer start _)
    unfold integer
    split
    · exact faultsAt_ok _
    · exact faultsAt_invalid _

/-- A string that is refused is refused where it starts. -/
theorem string_faults (length : Nat) (content : List Char) :
    FaultsAt start (string limits edge start length content rest).1 := by
  fun_induction string limits edge start length content rest with
  | case1 | case4 => exact faultsAt_atEdge (faultsAt_invalid _)
  | case2 | case5 => exact faultsAt_read _
  | case3 => exact faultsAt_ok _
  | case6 | case7 | case9 => exact faultsAt_invalid _
  | case8 _ _ _ _ _ _ _ _ _ _ _ _ ih => exact ih
  | case10 _ _ _ _ _ _ _ _ _ ih => exact ih

/-- A character that starts no token is refused where it stands. -/
theorem symbol_faults (c : Char) : FaultsAt start (symbol edge start c rest).1 := by
  -- A single character is a symbol, or is refused where it stands.
  have hsingle : FaultsAt start (single start c) := by
    unfold single
    split
    · exact faultsAt_ok _
    · exact faultsAt_invalid _
  unfold symbol
  split
  · refine faultsAt_withNext fun next rest => ?_
    split
    · exact faultsAt_ok _
    · exact hsingle
  · exact hsingle

/-- What is wrong with a token is reported where the token starts. -/
theorem token_faults (c : Char) : FaultsAt start (token limits edge start c rest).1 := by
  unfold token
  split
  · exact string_faults 0 []
  split
  · exact number_faults c
  split
  · exact word_faults c
  · exact symbol_faults c

/-! ## Skipping -/

/-- The place of the first character of a token, or of a fault. -/
abbrev skipPlace? : Except LexError (Option (Char × Position)) → Option Position :=
  place? fun found => found.map (·.2)

/-- The place of a fault at the edge is the one that it names. -/
theorem skipPlace?_atEdge {e : LexError} {q : Position}
    (h : skipPlace? (atEdge edge (.error e)).1 = some q) : e.position? = some q := by
  unfold atEdge at h
  split at h
  · exact absurd h (by simp [place?, LexError.position?])
  · exact h

/-- The end of the source has no place. -/
theorem skipPlace?_atEdge_none {q : Position} : skipPlace? (atEdge edge (.ok none)).1 ≠ some q := by
  unfold atEdge
  split <;> simp [place?, LexError.position?]

mutual

/-- Skipping names a place whose character it has consumed. -/
theorem skip_consumes : ∀ (rest : List Placed) (q : Position),
    skipPlace? (skip limits edge rest).1 = some q → Consumes rest q (skip limits edge rest).2
  | [], q, h => by
    unfold skip at h
    exact absurd h skipPlace?_atEdge_none
  | ⟨piece, position⟩ :: rest, q, h => by
    -- The piece in front does not matter for what is consumed of the rest.
    have hcons : Consumes rest q (skip limits edge rest).2 →
        Consumes (⟨piece, position⟩ :: rest) q (skip limits edge rest).2 :=
      fun h => h.mono (List.suffix_cons _ rest)
    unfold skip at h ⊢
    cases piece with
    | undecodable => exact absurd h (by simp [place?, undecodable, LexError.position?])
    | lineBreak style => exact hcons (skip_consumes rest q h)
    | char c =>
      -- A token starts here, and all that is consumed of it is this character.
      have hfound : ∀ rest', rest' <:+ rest → position = q →
          Consumes (⟨.char c, position⟩ :: rest) q rest' := by
        rintro rest' hsuffix rfl
        exact ⟨c, rest, List.suffix_refl _, hsuffix⟩
      simp only at h ⊢
      split at h
      · next hblank =>
        rw [if_pos hblank]
        exact hcons (skip_consumes rest q h)
      next hblank =>
      rw [if_neg hblank]
      split at h
      · next hslash =>
        rw [if_pos hslash]
        match rest with
        | [] => exact hfound [] (List.suffix_refl _) (Option.some.inj h)
        | p :: more =>
          have hmore : more <:+ ⟨.char c, position⟩ :: p :: more :=
            (List.suffix_cons p more).trans (List.suffix_cons _ _)
          simp only at h ⊢
          split at h
          · next hline =>
            rw [if_pos hline]
            rcases skipLine_consumes position 0 more q h with rfl | h
            · exact hfound _ ((skipLine_suffix q 0 more).trans (List.suffix_cons p more)) rfl
            · exact h.mono hmore
          next hline =>
          rw [if_neg hline]
          split at h
          · next hblock =>
            rw [if_pos hblock]
            rcases skipBlock_consumes position 0 more q h with rfl | h
            · exact hfound _ ((skipBlock_suffix q 0 more).trans (List.suffix_cons p more)) rfl
            · exact h.mono hmore
          next hblock =>
          rw [if_neg hblock]
          exact hfound _ (List.suffix_refl _) (Option.some.inj h)
      · next hslash =>
        rw [if_neg hslash]
        exact hfound rest (List.suffix_refl _) (Option.some.inj h)

/-- A comment to the end of the line is refused where it starts, or the place that is named lies
behind it and has been consumed. -/
theorem skipLine_consumes (start : Position) : ∀ (length : Nat) (rest : List Placed) (q : Position),
    skipPlace? (skipLine limits edge start length rest).1 = some q →
    q = start ∨ Consumes rest q (skipLine limits edge start length rest).2
  | length, [], q, h => by
    unfold skipLine at h
    exact absurd h skipPlace?_atEdge_none
  | length, p :: rest, q, h => by
    unfold skipLine at h ⊢
    cases hp : p.piece with
    | undecodable =>
      simp only [hp] at h
      exact absurd h (by simp [place?, undecodable, LexError.position?])
    -- The line break ends the comment, and what is found lies behind it.
    | lineBreak style =>
      simp only [hp] at h
      exact .inr ((skip_consumes rest q h).mono (List.suffix_cons p rest))
    | char c =>
      simp only [hp] at h ⊢
      -- A comment that is too long is refused at its start.
      split at h
      · exact .inl (Option.some.inj h).symm
      next hlength =>
      rw [if_neg hlength]
      exact (skipLine_consumes start (length + 1) rest q h).imp_right
        fun h => h.mono (List.suffix_cons p rest)

/-- A comment between its marks is refused where it starts, or the place that is named lies behind
it and has been reached character by character. -/
theorem skipBlock_consumes (start : Position) : ∀ (length : Nat) (rest : List Placed)
    (q : Position), skipPlace? (skipBlock limits edge start length rest).1 = some q →
    q = start ∨ Consumes rest q (skipBlock limits edge start length rest).2
  | length, [], q, h => by
    unfold skipBlock at h
    exact .inl (Option.some.inj (skipPlace?_atEdge h)).symm
  | length, p :: rest, q, h => by
    unfold skipBlock at h ⊢
    split at h
    · exact absurd h (by simp [place?, undecodable, LexError.position?])
    next hdecodable =>
    rw [if_neg hdecodable]
    split at h
    · next hstar =>
      rw [if_pos hstar]
      match rest with
      -- At the end of the source the comment is refused at its start.
      | [] =>
        simp only at h
        split at h <;> exact .inl (Option.some.inj (skipPlace?_atEdge h)).symm
      | p₁ :: more =>
        have hmore : more <:+ p :: p₁ :: more :=
          (List.suffix_cons p₁ more).trans (List.suffix_cons p _)
        simp only at h ⊢
        split at h
        · exact absurd h (by simp [place?, undecodable, LexError.position?])
        next hdecodable' =>
        rw [if_neg hdecodable']
        split at h
        · -- The comment is closed, and what is found lies behind it.
          next hslash =>
          rw [if_pos hslash]
          exact .inr ((skip_consumes more q h).mono hmore)
        next hslash =>
        rw [if_neg hslash]
        split at h
        · exact .inl (Option.some.inj h).symm
        next hlength =>
        rw [if_neg hlength]
        exact (skipBlock_consumes start (length + 1) (p₁ :: more) q h).imp_right
          fun h => h.mono (List.suffix_cons p _)
    · next hstar =>
      rw [if_neg hstar]
      split at h
      · exact .inl (Option.some.inj h).symm
      next hlength =>
      rw [if_neg hlength]
      exact (skipBlock_consumes start (length + 1) rest q h).imp_right
        fun h => h.mono (List.suffix_cons p rest)

end

/-- The place of a token, or of a fault. The end of the source is no token that stands anywhere. -/
abbrev lexemePlace? : Except LexError Lexeme → Option Position :=
  place? fun l => if l.token = .endOfFile then none else some l.position

/-- A scan that names a place has consumed the character there. -/
theorem lexeme_consumes {q : Position} (h : lexemePlace? (lexeme limits edge rest).1 = some q) :
    Consumes rest q (lexeme limits edge rest).2 := by
  have hskip : ∀ q, skipPlace? (skip limits edge rest).1 = some q →
      Consumes rest q (skip limits edge rest).2 := skip_consumes rest
  unfold lexeme at h ⊢
  cases hfound : skip limits edge rest with
  | mk found more =>
    rw [hfound] at hskip
    -- What has been skipped leads to the place, or to a fault.
    match found with
    | .error e =>
      simp only [hfound] at h ⊢
      exact hskip q h
    | .ok none =>
      simp only [hfound] at h
      exact absurd h (by simp [place?])
    | .ok (some (c, start)) =>
      simp only [hfound] at h ⊢
      have hfaults : FaultsAt start (token limits edge start c more).1 := token_faults c
      -- A token stands where it starts, and so do its faults.
      have hq : q = start := by
        cases htoken : (token limits edge start c more).1 with
        | ok t =>
          rw [htoken] at h
          simp only [Except.map, place?] at h
          split at h
          · exact absurd h (by simp)
          · exact (Option.some.inj h).symm
        | error e =>
          rw [htoken] at h hfaults
          exact hfaults q h
      subst hq
      exact (hskip q rfl).trans (token_suffix q c more)

end Scan

end Brisk
