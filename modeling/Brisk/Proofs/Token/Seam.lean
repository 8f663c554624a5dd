import Brisk.Proofs.Token.Stream

/-!
# Scanning across a seam

When one source follows another, its tokens are the same as if it stood alone, provided that the
source in front ends with a line break. `Seam more rest rest'` says that the pieces `rest` stand at
the front of `rest'`, in other places perhaps, and that `more` follows them. Unless `more` is empty,
a line break comes last in front of it.

A token that is found in `rest` is found in `rest'` as well (`Scan.token_seam`): no token goes on
with a line break, so no scan looks at what stands behind the last one. A comment ends with its
line, or is closed within `rest`, so where skipping reaches the end of `rest` it goes on with `more`
(`Scan.skip_seam`). Where the pieces stand matters for the positions of tokens and errors only.
-/

namespace Brisk

/-- The second list of pieces starts with those of the first, in other places perhaps, and goes on
with `more`: behind a line break, if there is more. -/
inductive Seam (more : List Placed) : List Placed → List Placed → Prop where
  | stop (h : more = []) : Seam more [] []
  | lineBreak {p q : Placed} {style : LineBreak} (hp : p.piece = .lineBreak style)
      (hq : q.piece = .lineBreak style) : Seam more [p] (q :: more)
  | cons {p q : Placed} {rest rest' : List Placed} (hpiece : q.piece = p.piece)
      (h : Seam more rest rest') : Seam more (p :: rest) (q :: rest')

/-- The same piece comes first on both sides. -/
theorem Seam.head {more rest rest' : List Placed} {p : Placed} (h : Seam more (p :: rest) rest') :
    ∃ q rest₁, rest' = q :: rest₁ ∧ q.piece = p.piece := by
  cases h with
  | @lineBreak _ q _ hp hq => exact ⟨q, more, rfl, hq.trans hp.symm⟩
  | @cons _ q _ rest₁ hpiece _ => exact ⟨q, rest₁, rfl, hpiece⟩

/-- A character that breaks no line is not the last piece in front of a seam. -/
theorem Seam.of_char {more rest rest' : List Placed} {p : Placed} {c : Char}
    (h : Seam more (p :: rest) rest') (hp : p.piece = .char c) :
    ∃ q rest₁, rest' = q :: rest₁ ∧ q.piece = .char c ∧ Seam more rest rest₁ := by
  cases h with
  | lineBreak hbreak =>
    rw [hp] at hbreak
    exact absurd hbreak (by simp)
  | @cons _ q _ rest₁ hpiece h => exact ⟨q, rest₁, rfl, hpiece.trans hp, h⟩

namespace Scan

variable {limits : Limits} {edge edge' : Edge} {more rest rest' : List Placed}

/-- The second outcome finds what the first does, and both leave the same pieces in front of the
seam. -/
def Carries {α : Type} (more : List Placed) (o o' : Outcome α) : Prop :=
  ∀ (a : α) (rest : List Placed), o = (.ok a, rest) →
    ∃ rest', o' = (.ok a, rest') ∧ Seam more rest rest'

section Carries

variable {α : Type}

/-- A result is carried over the seam. -/
theorem carries_ok (h : Seam more rest rest') (a : α) :
    Carries more (.ok a, rest) (.ok a, rest') := by
  intro b rest₁ heq
  obtain ⟨rfl, rfl⟩ := ok_eq_ok_iff.mp heq
  exact ⟨rest', rfl, h⟩

/-- Nothing is found where there is an error. -/
theorem carries_error {e : LexError} {o' : Outcome α} : Carries more (.error e, rest) o' :=
  fun _ _ heq => absurd heq error_ne_ok

/-- An error at the edge need not be carried over, since there is more behind it. -/
theorem carries_atEdge {e : LexError} {o' : Outcome α} :
    Carries more (atEdge edge (.error e)) o' := by
  intro a rest heq
  exact absurd (atEdge_eq_ok_iff.mp heq).2.1 (by simp)

/-- At the edge of the source there is no next character. -/
theorem withNext_nil (go : Option Char → List Placed → Outcome α) : withNext edge [] go =
    match edge.failure with
    | none => go none []
    | some e => (.error (.read e), []) := by
  unfold withNext Edge.peek Edge.close
  cases edge.failure <;> rfl

/-- The next character is the raw one of the first piece that is left. -/
theorem withNext_cons (go : Option Char → List Placed → Outcome α) (p : Placed) :
    withNext edge (p :: rest) go =
      match p.piece.raw? with
      | some c => go (some c) (p :: rest)
      | none => (.error (.read (.invalidUtf8 p.position.line)), rest) := by
  unfold withNext Edge.peek
  simp only
  cases p.piece.raw? <;> rfl

/-- Looking at the next character sees the same one in front of a seam. If it breaks no line, then
the pieces behind it stand in front of the seam too. -/
theorem withNext_carries (hedge : edge'.failure = none) (h : Seam more rest rest')
    {go go' : Option Char → List Placed → Outcome α}
    (hgo : ∀ c, ((∀ d, c = some d → d ≠ '\n' ∧ d ≠ '\r') → Seam more (rest.drop 1) (rest'.drop 1)) →
      Carries more (go c rest) (go' c rest')) :
    Carries more (withNext edge rest go) (withNext edge' rest' go') := by
  cases h with
  -- Nothing is ahead on either side, and the second edge does not fail.
  | stop hmore =>
    rw [withNext_nil, withNext_nil, hedge]
    cases edge.failure with
    | none => exact hgo none fun _ => .stop hmore
    | some e => exact carries_error
  -- A line break at the seam is shown on both sides, but must not be consumed.
  | @lineBreak p q style hp hq =>
    rw [withNext_cons, withNext_cons, hp, hq]
    refine hgo (some style.first) fun hc => ?_
    obtain ⟨hfeed, hreturn⟩ := hc style.first rfl
    cases style with
    | lineFeed => exact absurd rfl hfeed
    | carriageReturn | both => exact absurd rfl hreturn
  -- The same piece is ahead on both sides.
  | @cons p q rest rest' hpiece h =>
    rw [withNext_cons, withNext_cons, hpiece]
    cases p.piece.raw? with
    | none => exact carries_error
    | some c => exact hgo (some c) fun _ => h

end Carries

/-- A run takes the same characters in front of a seam. -/
theorem run_seam (ofClass : Char → Bool) (h : Seam more rest rest') :
    (run ofClass rest').1 = (run ofClass rest).1 ∧
      Seam more (run ofClass rest).2 (run ofClass rest').2 := by
  induction h with
  | stop hmore => exact ⟨rfl, .stop hmore⟩
  | lineBreak hp hq =>
    unfold run
    rw [hp, hq]
    exact ⟨rfl, .lineBreak hp hq⟩
  | @cons p q rest rest' hpiece h ih =>
    unfold run
    rw [hpiece]
    cases hp : p.piece with
    | char c =>
      simp only
      split
      · exact ⟨congrArg (c :: ·) ih.1, ih.2⟩
      · exact ⟨rfl, .cons hpiece h⟩
    | lineBreak | undecodable => exact ⟨rfl, .cons hpiece h⟩

/-- A word that ends in front of the seam is scanned alike with more behind it. -/
theorem word_seam (hedge : edge'.failure = none) (h : Seam more rest rest')
    (start start' : Position) (c : Char) :
    Carries more (word limits edge start c rest) (word limits edge' start' c rest') := by
  obtain ⟨hchars, hrun⟩ := run_seam continuesWord h
  unfold word
  simp only
  rw [hchars]
  split
  · exact carries_error
  · exact withNext_carries hedge hrun fun _ _ => carries_ok hrun _

/-- A number that ends in front of the seam is scanned alike with more behind it. -/
theorem number_seam (hedge : edge'.failure = none) (h : Seam more rest rest')
    (start start' : Position) (c : Char) :
    Carries more (number edge start c rest) (number edge' start' c rest') := by
  obtain ⟨hdigits, hrun⟩ := run_seam Char.isDigit h
  unfold number
  simp only
  rw [hdigits]
  refine withNext_carries hedge hrun fun next hdrop => ?_
  split
  · next hpoint =>
    -- A point is no line break, so it can be consumed on both sides.
    obtain ⟨hfraction, hrun'⟩ := run_seam Char.isDigit (hdrop (by
      intro d hd
      rw [hpoint] at hd
      rw [← Option.some.inj hd]
      decide))
    rw [hfraction]
    exact withNext_carries hedge hrun' fun _ _ => carries_ok hrun' _
  · unfold integer
    cases Integer.ofInt? (Integer.ofDigits (c :: (run Char.isDigit rest).1)) with
    | some n => exact carries_ok hrun _
    | none => exact carries_error

/-- A symbol that ends in front of the seam is scanned alike with more behind it. -/
theorem symbol_seam (hedge : edge'.failure = none) (h : Seam more rest rest')
    (start start' : Position) (c : Char) :
    Carries more (symbol edge start c rest) (symbol edge' start' c rest') := by
  have hsingle : Carries more (single start c, rest) (single start' c, rest') := by
    unfold single
    cases Symbol.single? c with
    | some s => exact carries_ok h _
    | none => exact carries_error
  unfold symbol
  split
  · refine withNext_carries hedge h fun next hdrop => ?_
    cases hpair : next.bind (Symbol.pair? c) with
    | some s =>
      -- The second character of a symbol is no line break either.
      refine carries_ok (hdrop fun d hd => ?_) _
      rw [hd] at hpair
      exact pair?_ne_some_of_lineBreak hpair
    | none => exact hsingle
  · exact hsingle

/-- A string literal is closed in front of the seam, since it does not end with a line break. -/
theorem string_seam (h : Seam more rest rest') (start start' : Position) (length : Nat)
    (content : List Char) :
    Carries more (string limits edge start length content rest)
      (string limits edge' start' length content rest') := by
  fun_induction string limits edge start length content rest generalizing rest' with
  | case1 | case4 => exact carries_atEdge
  | case2 | case5 | case6 | case7 | case9 => exact carries_error
  | case3 length content p rest hp =>
    obtain ⟨q, rest₁, rfl, hq, h⟩ := h.of_char (Piece.eq_char_of_char? hp (by decide))
    unfold string
    simp only [hq, Piece.char?]
    exact carries_ok h _
  | case8 length content p p₁ more₁ e hp₁ d hescape hlength hp hquote ih =>
    obtain ⟨q, rest₁, rfl, hq, h⟩ := h.of_char (Piece.eq_char_of_char? hp (by decide))
    -- A line break is no character that may follow a backslash.
    have he : e ≠ '\n' := by
      rintro rfl
      have hnone : unescape? '\n' = none := by decide
      rw [hnone] at hescape
      exact absurd hescape (by simp)
    obtain ⟨q₁, rest₂, rfl, hq₁, h⟩ := h.of_char (Piece.eq_char_of_char? hp₁ he)
    rw [string.eq_def limits edge' start' length content]
    simp only [hq, hq₁, Piece.char?, hescape, if_neg hquote, if_neg hlength]
    exact ih h
  | case10 length content p rest d hp hquote hescape hlength ih =>
    cases h with
    -- The last line break is within the string, which is not closed.
    | lineBreak =>
      unfold string
      exact carries_atEdge
    | cons hpiece h =>
      rw [string.eq_def limits edge' start' length content]
      simp only [hpiece, hp, if_neg hquote, if_neg hescape, if_neg hlength]
      exact ih h

/-- Every token that ends in front of the seam is scanned alike with more behind it. -/
theorem token_seam (hedge : edge'.failure = none) (h : Seam more rest rest')
    (start start' : Position) (c : Char) :
    Carries more (token limits edge start c rest) (token limits edge' start' c rest') := by
  unfold token
  split
  · exact string_seam h start start' 0 []
  split
  · exact number_seam hedge h start start' c
  split
  · exact word_seam hedge h start start' c
  · exact symbol_seam hedge h start start' c

/-! ## Skipping -/

/-- Where the first outcome finds the first character of a token, the second does so too, and where
the first ends, the second is that of skipping what comes behind the seam. -/
structure SkipCarries (limits : Limits) (edge' : Edge) (more : List Placed)
    (o o' : Outcome (Option (Char × Position))) : Prop where
  found : ∀ c start rest, o = (.ok (some (c, start)), rest) →
    ∃ start' rest', o' = (.ok (some (c, start')), rest') ∧ Seam more rest rest'
  ended : ∀ rest, o = (.ok none, rest) → o' = skip limits edge' more

section SkipCarries

variable {o' : Outcome (Option (Char × Position))} {start start' : Position}

/-- A fault in front of a token need not be carried over. -/
theorem skipCarries_error {e : LexError} : SkipCarries limits edge' more (.error e, rest) o' where
  found _ _ _ heq := absurd heq error_ne_ok
  ended _ heq := absurd heq error_ne_ok

/-- A fault that waits at the edge need not be carried over. -/
theorem skipCarries_atEdge {e : LexError} :
    SkipCarries limits edge' more (atEdge edge (.error e)) o' where
  found _ _ _ heq := absurd (atEdge_eq_ok_iff.mp heq).2.1 (by simp)
  ended _ heq := absurd (atEdge_eq_ok_iff.mp heq).2.1 (by simp)

/-- The first character of a token is found on both sides. -/
theorem skipCarries_found (h : Seam more rest rest') (c : Char) :
    SkipCarries limits edge' more (.ok (some (c, start)), rest)
      (.ok (some (c, start')), rest') where
  found d start₁ rest₁ heq := by
    obtain ⟨hfound, rfl⟩ := ok_eq_ok_iff.mp heq
    obtain ⟨rfl, -⟩ := Prod.mk.inj (Option.some.inj hfound)
    exact ⟨start', rest', rfl, h⟩
  ended rest₁ heq := absurd (ok_eq_ok_iff.mp heq).1 (by simp)

/-- At the end of the pieces in front of the seam, skipping goes on behind it. -/
theorem skipCarries_ended : SkipCarries limits edge' more (atEdge edge (.ok none))
    (skip limits edge' more) where
  found _ _ _ heq := absurd (atEdge_eq_ok_iff.mp heq).2.1 (by simp)
  ended _ _ := rfl

/-- Behind a line break, skipping goes on in front of the seam or behind it. -/
theorem skipCarries_lineBreak {p q : Placed}
    (ih : ∀ rest', Seam more rest rest' →
      SkipCarries limits edge' more (skip limits edge rest) (skip limits edge' rest'))
    (h : Seam more (p :: rest) (q :: rest')) :
    SkipCarries limits edge' more (skip limits edge rest) (skip limits edge' rest') := by
  cases h with
  | lineBreak =>
    rw [skip]
    exact skipCarries_ended
  | cons _ h => exact ih rest' h

end SkipCarries

mutual

/-- Skipping finds the same token in front of a seam, or goes on behind it. -/
theorem skip_seam : ∀ rest rest' : List Placed, Seam more rest rest' →
    SkipCarries limits edge' more (skip limits edge rest) (skip limits edge' rest')
  | [], rest', h => by
    obtain ⟨rfl⟩ := h
    rw [skip]
    exact skipCarries_ended
  | p :: rest, rest', h => by
    cases hp : p.piece with
    | undecodable =>
      unfold skip
      rw [hp]
      exact skipCarries_error
    | lineBreak style =>
      obtain ⟨q, rest₁, rfl, hq⟩ := h.head
      rw [skip, skip, hq, hp]
      exact skipCarries_lineBreak (skip_seam rest) h
    | char c =>
      obtain ⟨q, rest₁, rfl, hq, h⟩ := h.of_char hp
      -- A character in front of the seam is the same on both sides.
      rw [skip, skip, hp, hq]
      simp only
      split
      · exact skip_seam rest rest₁ h
      split
      · -- A slash opens a comment if a second one or a star is behind it.
        match rest with
        | [] =>
          cases h with
          | stop hmore => exact skipCarries_found (.stop hmore) c
        | p₁ :: more₁ =>
          obtain ⟨q₁, rest₂, rfl, hq₁⟩ := h.head
          simp only [hq₁]
          split
          · next hslash =>
            obtain ⟨_, _, heq, -, h⟩ := h.of_char hslash
            obtain ⟨rfl, rfl⟩ := List.cons.inj heq
            exact skipLine_seam _ _ 0 more₁ _ h
          split
          · next hstar =>
            obtain ⟨_, _, heq, -, h⟩ := h.of_char hstar
            obtain ⟨rfl, rfl⟩ := List.cons.inj heq
            exact skipBlock_seam _ _ 0 more₁ _ h
          · exact skipCarries_found h c
      · exact skipCarries_found h c

/-- A comment that ends with its line ends in front of the seam. -/
theorem skipLine_seam (start start' : Position) : ∀ (length : Nat) (rest rest' : List Placed),
    Seam more rest rest' → SkipCarries limits edge' more (skipLine limits edge start length rest)
      (skipLine limits edge' start' length rest')
  | length, [], rest', h => by
    obtain ⟨rfl⟩ := h
    have hskip : atEdge edge' (.ok none) = skip limits edge' [] := by rw [skip]
    rw [skipLine, skipLine, hskip]
    exact skipCarries_ended
  | length, p :: rest, rest', h => by
    cases hp : p.piece with
    | undecodable =>
      unfold skipLine
      rw [hp]
      exact skipCarries_error
    | lineBreak style =>
      -- The line break ends the comment, and may be the one at the seam.
      obtain ⟨q, rest₁, rfl, hq⟩ := h.head
      rw [skipLine, skipLine, hq, hp]
      exact skipCarries_lineBreak (skip_seam rest) h
    | char c =>
      obtain ⟨q, rest₁, rfl, hq, h⟩ := h.of_char hp
      rw [skipLine, skipLine, hp, hq]
      simp only
      split
      · exact skipCarries_error
      · exact skipLine_seam start start' (length + 1) rest rest₁ h

/-- A comment that must be closed is closed in front of the seam. -/
theorem skipBlock_seam (start start' : Position) : ∀ (length : Nat) (rest rest' : List Placed),
    Seam more rest rest' → SkipCarries limits edge' more (skipBlock limits edge start length rest)
      (skipBlock limits edge' start' length rest')
  | length, [], rest', h => by
    unfold skipBlock
    exact skipCarries_atEdge
  | length, p :: rest, rest', h => by
    by_cases hundecodable : p.piece = .undecodable
    · unfold skipBlock
      rw [if_pos hundecodable]
      exact skipCarries_error
    by_cases hstar : p.piece = .char '*'
    · -- A star is no line break, so it is the same on both sides.
      obtain ⟨q, rest₁, rfl, hq, h⟩ := h.of_char hstar
      unfold skipBlock
      simp only [hstar, hq, reduceCtorEq, if_false, if_true]
      match rest with
      | [] =>
        simp only
        split <;> exact skipCarries_atEdge
      | p₁ :: more₁ =>
        obtain ⟨q₁, rest₂, rfl, hq₁⟩ := h.head
        simp only [hq₁]
        split
        · exact skipCarries_error
        split
        · next hslash =>
          obtain ⟨_, _, heq, -, h⟩ := h.of_char hslash
          obtain ⟨rfl, rfl⟩ := List.cons.inj heq
          exact skip_seam more₁ _ h
        split
        · exact skipCarries_error
        · exact skipBlock_seam start start' (length + 1) (p₁ :: more₁) _ h
    · obtain ⟨q, rest₁, rfl, hq⟩ := h.head
      unfold skipBlock
      simp only [hq, hundecodable, hstar, if_false]
      split
      · exact skipCarries_error
      cases h with
      | lineBreak =>
        -- The last line break is within the comment, which is not closed.
        unfold skipBlock
        exact skipCarries_atEdge
      | cons _ h => exact skipBlock_seam start start' (length + 1) rest rest₁ h

end

/-! ## Tokens and iterations -/

/-- A token in front of a seam is found with whatever follows the seam, and at the end of what is in
front, scanning goes on behind it. -/
theorem lexeme_seam (hedge : edge'.failure = none) (h : Seam more rest rest') {l : Lexeme}
    {rest₁ : List Placed} (hl : lexeme limits edge rest = (.ok l, rest₁)) :
    (l.token = .endOfFile ∧ lexeme limits edge' rest' = lexeme limits edge' more) ∨
    (l.token ≠ .endOfFile ∧ ∃ l' rest₁', lexeme limits edge' rest' = (.ok l', rest₁') ∧
      l'.token = l.token ∧ Seam more rest₁ rest₁') := by
  have hskip : SkipCarries limits edge' more (skip limits edge rest) (skip limits edge' rest') :=
    skip_seam rest rest' h
  unfold lexeme at hl
  generalize skip limits edge rest = o at hl hskip
  match o with
  -- A fault that comes first on the one side says nothing of the other.
  | (.error e, mid) => exact absurd hl error_ne_ok
  | (.ok none, mid) =>
    obtain ⟨rfl, -⟩ := ok_eq_ok_iff.mp hl
    refine .inl ⟨rfl, ?_⟩
    unfold lexeme
    rw [hskip.ended mid rfl]
  -- The token starts with the same character, and ends in front of the seam.
  | (.ok (some (c, start)), mid) =>
    obtain ⟨start', mid', hskip', hmid⟩ := hskip.found c start mid rfl
    have htoken : Carries more (token limits edge start c mid) (token limits edge' start' c mid') :=
      token_seam hedge hmid start start' c
    simp only at hl
    cases ho : token limits edge start c mid with
    | mk result rest₂ =>
      rw [ho] at hl htoken
      cases result with
      | error e => exact absurd hl error_ne_ok
      | ok t =>
        obtain ⟨rfl, rfl⟩ := ok_eq_ok_iff.mp hl
        obtain ⟨rest₂', ho', hrest₂⟩ := htoken t rest₂ rfl
        obtain ⟨text, hscanned⟩ := token_sound ho
        refine .inr ⟨hscanned.spelling.ne_endOfFile, ⟨t, start'⟩, rest₂', ?_, rfl, hrest₂⟩
        unfold lexeme
        rw [hskip']
        simp only [ho']
        rfl

end Scan

/-- Iterating over the pieces in front of a seam gives the same tokens with whatever follows it, and
goes on with those of what follows. -/
theorem Lexer.yields_seam {limits : Limits} {edge edge' : Edge} {more rest rest' : List Placed}
    {ls ls' : List Lexeme} {ts : List Token} (hedge : edge'.failure = none)
    (hseam : Seam more rest rest') (h : Yields ⟨limits, ⟨rest, edge⟩, false⟩ ls)
    (hts : ls.map (·.token) = ts ++ [.endOfFile])
    (h' : Yields ⟨limits, ⟨more, edge'⟩, false⟩ ls') :
    ∃ ls₁, Yields ⟨limits, ⟨rest', edge'⟩, false⟩ ls₁ ∧
      ls₁.map (·.token) = ts ++ ls'.map (·.token) := by
  induction ts generalizing rest rest' ls with
  | nil =>
    -- Only the end of the source is left on the first side, so the other side is behind the seam.
    obtain ⟨l, src, hl, hls⟩ := yields_iff.mp h
    have hend : l.token = .endOfFile := by
      rcases hls with ⟨hend, -⟩ | ⟨-, ls₂, rfl, -⟩
      · exact hend
      · exact (List.cons.inj hts).1
    rcases Scan.lexeme_seam hedge hseam (Source.lexeme_eq_ok_iff.mp hl).1 with
      ⟨-, hlexeme⟩ | ⟨hne, -⟩
    · have hsource :
          (Source.mk rest' edge').lexeme limits = (Source.mk more edge').lexeme limits := by
        unfold Source.lexeme
        simp only [hlexeme]
      refine ⟨ls', ?_, rfl⟩
      rw [yields_iff, hsource]
      exact yields_iff.mp h'
    · exact absurd hend hne
  | cons t ts ih =>
    obtain ⟨l, src, hl, ⟨-, rfl⟩ | ⟨hne, ls₂, rfl, hrest⟩⟩ := yields_iff.mp h
    · exact absurd (List.cons.inj hts).2 (by simp)
    -- The first token is the same, and the others are by induction.
    obtain ⟨rfl, hmore⟩ := List.cons.inj hts
    obtain ⟨hscan, hsource⟩ := Source.lexeme_eq_ok_iff.mp hl
    obtain ⟨rest₁, edge₁⟩ := src
    obtain rfl : edge₁ = edge := hsource
    rcases Scan.lexeme_seam hedge hseam hscan with
      ⟨hend, -⟩ | ⟨-, l', rest₁', hscan', htoken, hseam'⟩
    · exact absurd hend hne
    obtain ⟨ls₁, hyields, htokens⟩ := ih hseam' hrest hmore
    refine ⟨l' :: ls₁, yields_iff.mpr ⟨l', ⟨rest₁', edge'⟩, ?_, .inr ⟨?_, ls₁, rfl, hyields⟩⟩, ?_⟩
    · exact Source.lexeme_eq_ok_iff.mpr ⟨hscan', rfl⟩
    · rw [htoken]
      exact hne
    · rw [List.map_cons, htokens, htoken]
      rfl

end Brisk
