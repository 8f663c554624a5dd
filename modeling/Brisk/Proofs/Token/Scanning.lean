import Brisk.Proofs.Number.Numeral
import Brisk.Proofs.Token.Scanner

/-!
# What a scanner finds

Whatever is in its buffer, a scanner comes to what the scan comes to of the pieces that it stands
for (`Scanner.comes_scan`). The loops follow the recursion of the scan, by induction on the number
of pieces that are left.

So every request to a scanner is answered as it is from its source, and leaves of the source what it
leaves there (`Scanner.scan_source`).
-/

namespace Brisk

namespace Scanner

variable {α : Type} {limits : Limits} {edge : Edge} {ahead rest : List Placed} {p : Placed}
  {buffer : List Char} {c : Char} {start : Position} {length : Nat} {outcome : Scan.Outcome α}

/-! ## Runs of characters -/

/-- Where no pieces are left, no character is shown. -/
theorem eq_none_of_peek_nil {next : Option Char} {more : List Placed}
    (hpeek : edge.peek [] = (.ok next, more)) : next = none ∧ more = [] := by
  unfold Edge.peek Edge.close at hpeek
  cases hfailure : edge.failure with
  | some e => simp [hfailure] at hpeek
  | none =>
    rw [hfailure] at hpeek
    exact ⟨(Except.ok.inj (Prod.mk.inj hpeek).1).symm, (Prod.mk.inj hpeek).2.symm⟩

/-- A list of pieces goes on with a character of a class, or looking at it shows none of them. -/
theorem run_cases (ofClass : Char → Bool) (hfeed : ofClass '\n' = false)
    (hreturn : ofClass '\r' = false) (edge : Edge) (ahead : List Placed) :
    (∃ p rest c, ahead = p :: rest ∧ p.piece = .char c ∧ ofClass c = true ∧
      Scan.run ofClass ahead = (c :: (Scan.run ofClass rest).1, (Scan.run ofClass rest).2)) ∨
    Scan.run ofClass ahead = ([], ahead) ∧ ∀ next more, edge.peek ahead = (.ok next, more) →
      more = ahead ∧ ∀ c, next = some c → ofClass c = false := by
  cases ahead with
  | nil =>
    -- Nothing is ahead, and so nothing is shown.
    refine .inr ⟨rfl, fun next more hpeek => ?_⟩
    obtain ⟨rfl, rfl⟩ := eq_none_of_peek_nil hpeek
    exact ⟨rfl, by simp⟩
  | cons p rest =>
    -- What is shown of a piece is its first character, and nothing is consumed by looking at it.
    have hshown : ∀ d, p.piece.raw? = some d → ofClass d = false → ∀ next more,
        edge.peek (p :: rest) = (.ok next, more) →
          more = p :: rest ∧ ∀ c, next = some c → ofClass c = false := by
      intro d hd hclass next more hpeek
      simp only [Edge.peek, hd, Prod.mk.injEq, Except.ok.injEq] at hpeek
      obtain ⟨rfl, rfl⟩ := hpeek
      exact ⟨rfl, fun c hc => Option.some.inj hc ▸ hclass⟩
    cases hp : p.piece with
    | char c =>
      cases hc : ofClass c with
      | true => exact .inl ⟨p, rest, c, rfl, hp, hc, by simp [Scan.run, hp, hc]⟩
      | false =>
        exact .inr ⟨by simp [Scan.run, hp, hc], hshown c (by rw [hp]; rfl) hc⟩
    -- A line break shows a line feed or a carriage return, which is not of the class.
    | lineBreak style =>
      refine .inr ⟨by simp [Scan.run, hp], hshown style.first (by rw [hp]; rfl) ?_⟩
      cases style
      · exact hfeed
      · exact hreturn
      · exact hreturn
    -- What cannot be decoded shows nothing, but fails.
    | undecodable =>
      refine .inr ⟨by simp [Scan.run, hp], fun next more hpeek => ?_⟩
      have hraw : p.piece.raw? = none := by rw [hp]; rfl
      simp [Edge.peek, hraw] at hpeek

/-- Digits are collected up to the first other character, which is looked at. -/
theorem comes_takeDigits_bind {f : Unit → Scanning α} {go : List Placed → Scan.Outcome α}
    (hf : ∀ more, Comes limits edge more (buffer ++ (Scan.run Char.isDigit ahead).1) (f ())
      (go more)) :
    Comes limits edge ahead buffer (takeDigits >>= f)
      (Scan.withNext edge (Scan.run Char.isDigit ahead).2 fun _ more => go more) := by
  induction hn : ahead.length using Nat.strong_induction_on generalizing ahead buffer with
  | _ n ih =>
    subst hn
    rw [takeDigits_eq, bind_assoc]
    rcases run_cases Char.isDigit (by decide) (by decide) edge ahead with
      ⟨p, rest, c, rfl, hp, hc, hrun⟩ | ⟨hrun, hstop⟩
    · -- A digit is consumed and collected, and there is one piece less ahead.
      rw [hrun] at hf ⊢
      refine comes_peek_bind_cons (by rw [hp]; rfl) ?_
      simp only [if_pos hc, bind_assoc]
      refine comes_bump_bind (by rw [hp]; rfl) (comes_push_bind ?_)
      refine ih rest.length (Nat.lt_succ_self _) (fun more => ?_) rfl
      rw [List.append_assoc]
      exact hf more
    · -- What is shown is no digit, so nothing is consumed.
      rw [hrun] at hf ⊢
      rw [List.append_nil] at hf
      refine comes_peek_bind fun next more hpeek => ?_
      cases next with
      | none => exact hf more
      | some c =>
        simp only [(hstop _ _ hpeek).2 c rfl, Bool.false_eq_true, if_false, pure_bind]
        exact hf more

/-- The characters of a word are collected up to the first other character, or up to the bound. -/
theorem comes_takeWord_bind {f : Unit → Scanning α} {go : List Placed → Scan.Outcome α}
    (hlength : 1 ≤ length)
    (hf : ∀ more, Comes limits edge more (buffer ++ (Scan.run Scan.continuesWord ahead).1) (f ())
      (go more)) :
    Comes limits edge ahead buffer (takeWord start length >>= f)
      (if (Scan.run Scan.continuesWord ahead).1 ≠ [] ∧
          limits.identifier < (Scan.run Scan.continuesWord ahead).1.length + length then
        (.error (.invalid start (.identifierTooLong limits.identifier)),
          ahead.drop (max 1 (limits.identifier + 1 - length)))
      else Scan.withNext edge (Scan.run Scan.continuesWord ahead).2 fun _ more => go more) := by
  induction hn : ahead.length using Nat.strong_induction_on generalizing ahead buffer length with
  | _ n ih =>
    subst hn
    rw [takeWord_eq, bind_assoc]
    rcases run_cases Scan.continuesWord (by decide) (by decide) edge ahead with
      ⟨p, rest, c, rfl, hp, hc, hrun⟩ | ⟨hrun, hstop⟩
    · -- A character of the word is consumed and collected before its length is checked.
      rw [hrun] at hf ⊢
      refine comes_peek_bind_cons (by rw [hp]; rfl) ?_
      simp only [if_pos hc, bind_assoc]
      refine comes_bump_bind (by rw [hp]; rfl) (comes_push_bind ?_)
      by_cases hbound : limits.identifier < length + 1
      · have hdrop : max 1 (limits.identifier + 1 - length) = 1 := by omega
        rw [if_pos ⟨by simp, by rw [List.length_cons]; omega⟩, hdrop, List.drop_succ_cons,
          List.drop_zero]
        exact comes_within_bind_of_lt hbound
      · -- Within the bound, the rest of the word is collected with a length that is one more.
        have hrest : Comes limits edge rest (buffer ++ [c]) (takeWord start (length + 1) >>= f) _ :=
          ih rest.length (Nat.lt_succ_self _) (by omega)
            (fun more => by rw [List.append_assoc]; exact hf more) rfl
        have hdrop : (p :: rest).drop (max 1 (limits.identifier + 1 - length)) =
            rest.drop (max 1 (limits.identifier + 1 - (length + 1))) := by
          have hsucc : max 1 (limits.identifier + 1 - length) =
              max 1 (limits.identifier + 1 - (length + 1)) + 1 := by omega
          rw [hsucc, List.drop_succ_cons]
        -- A word of which nothing is left is not too long, since the bound has been checked.
        have hlong : ((Scan.run Scan.continuesWord rest).1 ≠ [] ∧ limits.identifier <
              (Scan.run Scan.continuesWord rest).1.length + (length + 1)) ↔
            c :: (Scan.run Scan.continuesWord rest).1 ≠ [] ∧ limits.identifier <
              (c :: (Scan.run Scan.continuesWord rest).1).length + length := by
          cases (Scan.run Scan.continuesWord rest).1 with
          | nil => simp; omega
          | cons d ds => simp; omega
        rw [hdrop]
        simp only [hlong] at hrest
        exact comes_within_bind_of_not_lt hbound hrest
    · rw [hrun] at hf ⊢
      rw [List.append_nil] at hf
      refine comes_peek_bind fun next more hpeek => ?_
      cases next with
      | none => exact hf more
      | some c =>
        simp only [(hstop _ _ hpeek).2 c rfl, Bool.false_eq_true, if_false, pure_bind]
        exact hf more

/-! ## Tokens -/

/-- Looking twice shows what looking once does. -/
theorem withNext_twice (go : Option Char → List Placed → Scan.Outcome α) :
    Scan.withNext edge ahead (fun _ more => Scan.withNext edge more go) =
      Scan.withNext edge ahead go := by
  cases ahead with
  | nil =>
    rw [Scan.withNext_nil, Scan.withNext_nil]
    cases edge.failure <;> rfl
  | cons p rest =>
    rw [Scan.withNext_cons, Scan.withNext_cons]
    cases p.piece.raw? <;> rfl

/-- The characters of a string literal are collected behind those that have been. -/
theorem comes_takeString_bind (rest : List Placed) (content : List Char) (length : Nat) :
    Comes limits edge rest content.reverse
      (takeString start length >>= fun _ => do return .str (← collected))
      (Scan.string limits edge start length content rest) := by
  induction hn : rest.length using Nat.strong_induction_on generalizing rest content length with
  | _ n ih =>
    subst hn
    rw [takeString_eq, Scan.string.eq_def, bind_assoc]
    -- What is done with a character of the content, escaped or not.
    have hcollect : ∀ (d : Char) (more : List Placed), more.length < rest.length →
        Comes limits edge more content.reverse
          (within start Limits.string .stringTooLong (length + 1) >>= fun _ => push d >>= fun _ =>
            takeString start (length + 1) >>= fun _ => do return .str (← collected))
          (if limits.string < length + 1 then
            (.error (.invalid start (.stringTooLong limits.string)), more)
          else Scan.string limits edge start (length + 1) (d :: content) more) := by
      intro d more hmore
      refine comes_within_bind (comes_push_bind ?_)
      rw [← List.reverse_cons]
      exact ih more.length hmore more (d :: content) (length + 1) rfl
    cases rest with
    | nil => exact comes_bump_bind_nil (comes_throw _)
    | cons p more =>
      cases hp : p.piece.char? with
      | none =>
        simp only [hp]
        exact comes_bump_bind_of_undecodable (Piece.char?_eq_none_iff.mp hp)
      | some c =>
        refine comes_bump_bind hp ?_
        simp only [hp]
        by_cases hquote : c = '"'
        · simp only [if_pos hquote, pure_bind]
          exact comes_collected_bind (comes_pure _)
        simp only [if_neg hquote]
        by_cases hescape : c = '\\'
        · simp only [if_pos hescape, takeEscape, bind_assoc]
          -- A backslash is followed by the character that it escapes.
          cases more with
          | nil => exact comes_bump_bind_nil (comes_throw _)
          | cons q more =>
            cases hq : q.piece.char? with
            | none =>
              simp only [hq]
              exact comes_bump_bind_of_undecodable (Piece.char?_eq_none_iff.mp hq)
            | some e =>
              refine comes_bump_bind hq ?_
              simp only [hq]
              cases Scan.unescape? e with
              | none => exact comes_throw _
              | some d =>
                refine hcollect d more ?_
                rw [List.length_cons, List.length_cons]
                omega
        · simp only [if_neg hescape, pure_bind, bind_assoc]
          exact hcollect c more (Nat.lt_succ_self _)

/-- A string is scanned with an empty buffer to begin with. -/
theorem comes_string : Comes limits edge rest buffer (string start)
    (Scan.string limits edge start 0 [] rest) :=
  comes_clear_bind (comes_takeString_bind rest [] 0)

/-- A character that is shown, and is in no line break, can be taken. -/
theorem exists_of_peek {more : List Placed} (hpeek : edge.peek ahead = (.ok (some c), more))
    (hfeed : c ≠ '\n') (hreturn : c ≠ '\r') :
    ∃ p rest, more = p :: rest ∧ p.piece.char? = some c := by
  cases ahead with
  | nil =>
    exact absurd (eq_none_of_peek_nil hpeek).1 (by simp)
  | cons p rest =>
    cases hp : p.piece.raw? with
    | none => simp [Edge.peek, hp] at hpeek
    | some d =>
      simp only [Edge.peek, hp, Prod.mk.injEq, Except.ok.injEq, Option.some.injEq] at hpeek
      obtain ⟨rfl, rfl⟩ := hpeek
      exact ⟨p, rest, rfl, (Piece.raw?_eq_some_iff hfeed hreturn).mp hp⟩

/-- The digits that have been collected are read as the digits that a scan finds. -/
theorem comes_number (hc : c.isDigit = true) : Comes limits edge rest buffer (number start c)
    (Scan.number edge start c rest) := by
  obtain ⟨-, hrun, -⟩ := Scan.run_spells Char.isDigit (by decide) rest
  have hdigits : ∀ d ∈ c :: (Scan.run Char.isDigit rest).1, d.isDigit = true :=
    List.forall_mem_cons.mpr ⟨hc, hrun⟩
  refine comes_clear_bind (comes_push_bind ?_)
  show Comes limits edge rest [c] _ (Scan.withNext edge (Scan.run Char.isDigit rest).2 _)
  -- The character behind the digits is looked at once for their end and once for a point.
  rw [← withNext_twice]
  refine comes_takeDigits_bind fun more => comes_peek_bind fun next more hpeek => ?_
  rw [List.singleton_append]
  by_cases hpoint : next = some '.'
  · subst hpoint
    obtain ⟨p, more, rfl, hp⟩ := exists_of_peek hpeek (by decide) (by decide)
    obtain ⟨-, hfraction, -⟩ := Scan.run_spells Char.isDigit (by decide) more
    rw [if_pos rfl, if_pos rfl]
    refine comes_bump_bind hp (comes_push_bind (comes_takeDigits_bind fun more' => ?_))
    refine comes_collected_bind ?_
    rw [List.append_assoc, List.singleton_append,
      Decimal.read?_of_digits (List.cons_ne_nil c _) hdigits hfraction]
    exact comes_pure _
  · -- Without a point, the digits are an integer, if it has 32 bits.
    rw [if_neg hpoint, if_neg hpoint]
    refine comes_collected_bind ?_
    rw [Integer.read?_of_digits (by simp) (by rwa [String.toList_ofList]), String.toList_ofList]
    unfold Scan.integer
    cases Integer.ofInt? (Integer.ofDigits (c :: (Scan.run Char.isDigit rest).1)) with
    | some n => exact comes_pure _
    | none => exact comes_collected_bind (comes_throw _)

/-- A word is scanned with its first character in the buffer. -/
theorem comes_word : Comes limits edge rest buffer (word start c)
    (Scan.word limits edge start c rest) := by
  have hword : Comes limits edge rest [c]
      (takeWord start 1 >>= fun _ => do return Token.ofWord (← collected)) _ :=
    comes_takeWord_bind (Nat.le_refl 1) fun more => comes_collected_bind (comes_pure _)
  rw [Nat.add_sub_cancel] at hword
  exact comes_clear_bind (comes_push_bind hword)

/-- A symbol of one character is looked up, or the character is refused. -/
theorem comes_single : Comes limits edge rest buffer (match Symbol.single? c with
      | some s => return .symbol s
      | none => throw (.invalid start (.notAToken c))) (Scan.single start c, rest) := by
  unfold Scan.single
  cases Symbol.single? c with
  | some s => exact comes_pure _
  | none => exact comes_throw _

/-- A symbol is scanned by looking at the next character, and taking it if both make a symbol. -/
theorem comes_symbol : Comes limits edge rest buffer (symbol start c)
    (Scan.symbol edge start c rest) := by
  unfold symbol Scan.symbol
  split
  · refine comes_peek_bind fun next more hpeek => ?_
    -- A pair of characters is a symbol, and otherwise the first one alone.
    cases hnext : next.bind (Symbol.pair? c) with
    | none => exact comes_single
    | some s =>
      obtain ⟨d, rfl, hpair⟩ := Option.bind_eq_some_iff.mp hnext
      obtain ⟨hfeed, hreturn⟩ := Scan.pair?_ne_some_of_lineBreak hpair
      obtain ⟨p, more, rfl, hp⟩ := exists_of_peek hpeek hfeed hreturn
      exact comes_bump_bind hp (comes_pure _)
  · rw [pure_bind]
    exact comes_single

/-- A scanner finds the token that a scan finds. -/
theorem comes_token : Comes limits edge rest buffer (token start c)
    (Scan.token limits edge start c rest) := by
  unfold token Scan.token
  split
  · exact comes_string
  split
  · next hc => exact comes_number hc
  split
  · exact comes_word
  · exact comes_symbol

/-! ## Blanks and comments -/

/-- What comes of the first character behind blanks and comments. -/
def finish (limits : Limits) (edge : Edge) :
    Scan.Outcome (Option (Char × Position)) → Scan.Outcome Lexeme
  | (.error e, more) => (.error e, more)
  | (.ok none, more) => (.ok ⟨.endOfFile, edge.position⟩, more)
  | (.ok (some (c, start)), more) =>
    ((Scan.token limits edge start c more).1.map (⟨·, start⟩),
      (Scan.token limits edge start c more).2)

/-- A lexeme is what skipping finds, finished. -/
theorem lexeme_eq_finish (ahead : List Placed) :
    Scan.lexeme limits edge ahead = finish limits edge (Scan.skip limits edge ahead) := by
  unfold Scan.lexeme
  rcases Scan.skip limits edge ahead with ⟨_ | _ | ⟨c, start⟩, more⟩ <;> rfl

/-- Whether line breaks are pieces of their own. -/
def Plain (ahead : List Placed) : Prop :=
  ∀ p ∈ ahead, p.piece ≠ .char '\n' ∧ p.piece ≠ .char '\r'

/-- Whether scanning goes as a scan does, from fewer pieces than given. -/
def ScansBelow (limits : Limits) (edge : Edge) (n : Nat) : Prop :=
  ∀ ahead buffer, Plain ahead → ahead.length < n →
    Comes limits edge ahead buffer scan (finish limits edge (Scan.skip limits edge ahead))

variable {n : Nat}

/-- A comment that ends with its line is skipped, up to the line break. -/
theorem comes_skipLine_bind (h : ScansBelow limits edge n) (hplain : Plain rest)
    (hlength : rest.length < n) :
    Comes limits edge rest buffer (skipLine start length >>= fun _ => scan)
      (finish limits edge (Scan.skipLine limits edge start length rest)) := by
  induction rest generalizing length with
  | nil =>
    -- At the edge, the comment ends with the source, or the failure is reported.
    have hedge : finish limits edge (Scan.skipLine limits edge start length []) =
        Scan.withNext edge [] fun _ more => finish limits edge (Scan.skip limits edge more) := by
      rw [Scan.withNext_nil, Scan.skipLine]
      unfold Scan.atEdge
      cases hfailure : edge.failure with
      | none => simp only [Scan.skip, Scan.atEdge, hfailure]
      | some cause => rfl
    rw [hedge, skipLine_eq, bind_assoc]
    refine comes_peek_bind fun next more hpeek => ?_
    obtain ⟨rfl, rfl⟩ := eq_none_of_peek_nil hpeek
    exact h [] buffer hplain hlength
  | cons p rest ih =>
    obtain ⟨hp', hrest⟩ := List.forall_mem_cons.mp hplain
    rw [List.length_cons] at hlength
    rw [skipLine_eq, Scan.skipLine, bind_assoc]
    cases hp : p.piece with
    | undecodable => exact comes_peek_bind_of_undecodable hp
    -- The line break ends the comment, and is a blank for what follows.
    | lineBreak style =>
      have hscan := h (p :: rest) buffer hplain hlength
      rw [Scan.skip, hp] at hscan
      refine comes_peek_bind_cons (by rw [hp]; rfl) ?_
      have hfirst : style.first = '\n' ∨ style.first = '\r' := by cases style <;> decide
      simp only [if_pos hfirst, pure_bind]
      exact hscan
    | char c =>
      -- Any other character is counted.
      have hbreak : ¬(c = '\n' ∨ c = '\r') := by
        rw [hp, Ne, Ne, Piece.char.injEq, Piece.char.injEq] at hp'
        exact not_or.mpr hp'
      refine comes_peek_bind_cons (by rw [hp]; rfl) ?_
      simp only [if_neg hbreak, bind_assoc]
      refine comes_bump_bind (by rw [hp]; rfl) ?_
      by_cases hbound : limits.comment < length + 1
      · rw [if_pos hbound]
        exact comes_within_bind_of_lt hbound
      · rw [if_neg hbound]
        exact comes_within_bind_of_not_lt hbound (ih hrest (by omega))

/-- A comment that ends with a star and a slash is skipped. -/
theorem comes_skipBlock_bind (h : ScansBelow limits edge n) (hplain : Plain rest)
    (hlength : rest.length < n) :
    Comes limits edge rest buffer (skipBlock start length >>= fun _ => scan)
      (finish limits edge (Scan.skipBlock limits edge start length rest)) := by
  induction rest generalizing length with
  | nil =>
    rw [skipBlock_eq, Scan.skipBlock, bind_assoc]
    -- An unterminated comment is the last thing that a scan reports.
    have hedge : finish limits edge
        (Scan.atEdge edge (.error (.invalid start .unterminatedComment))) =
        Scan.atEdge edge (.error (.invalid start .unterminatedComment)) := by
      unfold Scan.atEdge
      cases edge.failure <;> rfl
    rw [hedge]
    exact comes_bump_bind_nil (comes_throw _)
  | cons p rest ih =>
    obtain ⟨-, hrest⟩ := List.forall_mem_cons.mp hplain
    rw [List.length_cons] at hlength
    rw [skipBlock_eq, Scan.skipBlock.eq_def, bind_assoc]
    -- What is done with a character that does not begin the end of the comment.
    have hcount : Comes limits edge rest buffer
        (within start Limits.comment .commentTooLong (length + 1) >>= fun _ =>
          skipBlock start (length + 1) >>= fun _ => scan)
        (finish limits edge (if limits.comment < length + 1 then
          (.error (.invalid start (.commentTooLong limits.comment)), rest)
          else Scan.skipBlock limits edge start (length + 1) rest)) := by
      by_cases hbound : limits.comment < length + 1
      · rw [if_pos hbound]
        exact comes_within_bind_of_lt hbound
      · rw [if_neg hbound]
        exact comes_within_bind_of_not_lt hbound (ih hrest (by omega))
    by_cases hundecodable : p.piece = .undecodable
    · simp only [if_pos hundecodable]
      exact comes_bump_bind_of_undecodable hundecodable
    simp only [if_neg hundecodable]
    obtain ⟨c, hc⟩ : ∃ c, p.piece.char? = some c :=
      Option.ne_none_iff_exists'.mp fun hnone => hundecodable (Piece.char?_eq_none_iff.mp hnone)
    refine comes_bump_bind hc ?_
    -- A star may begin the end of the comment, so one more character is looked at.
    by_cases hstar : c = '*'
    · subst hstar
      have hpiece : p.piece = .char '*' := Piece.eq_char_of_char? hc (by decide)
      simp only [if_pos hpiece, if_true, bind_assoc]
      cases rest with
      | nil =>
        -- At the edge, the star is counted before the end is reported.
        have hedge : (finish limits edge (if limits.comment < length + 1 then
              Scan.atEdge edge (.error (.invalid start (.commentTooLong limits.comment)))
            else Scan.atEdge edge (.error (.invalid start .unterminatedComment)))) =
            Scan.withNext edge [] fun _ more =>
              finish limits edge (if limits.comment < length + 1 then
                (.error (.invalid start (.commentTooLong limits.comment)), more)
              else Scan.skipBlock limits edge start (length + 1) more) := by
          rw [Scan.withNext_nil, Scan.skipBlock.eq_def]
          unfold Scan.atEdge
          cases edge.failure with
          | none => split <;> rfl
          | some cause => split <;> rfl
        rw [hedge]
        refine comes_peek_bind fun next more hpeek => ?_
        obtain ⟨rfl, rfl⟩ := eq_none_of_peek_nil hpeek
        simp only [reduceCtorEq, if_false, bind_assoc]
        exact hcount
      | cons q more =>
        obtain ⟨-, hmore⟩ := List.forall_mem_cons.mp hrest
        rw [List.length_cons] at hlength
        by_cases hundecodable' : q.piece = .undecodable
        · simp only [if_pos hundecodable']
          exact comes_peek_bind_of_undecodable hundecodable'
        by_cases hslash : q.piece = .char '/'
        · -- The comment ends, and the scan goes on behind it.
          have hq : q.piece.raw? = some '/' := by rw [hslash]; rfl
          have hq' : q.piece.char? = some '/' := by rw [hslash]; rfl
          refine comes_peek_bind_cons hq ?_
          simp only [if_neg hundecodable', if_pos hslash, if_true, bind_assoc, pure_bind]
          exact comes_bump_bind hq' (h more buffer hmore (by omega))
        · -- What is shown is another character, so the star is counted.
          obtain ⟨d, hd⟩ : ∃ d, q.piece.raw? = some d := by
            obtain ⟨d, hd⟩ := Option.ne_none_iff_exists'.mp fun hnone =>
              hundecodable' (Piece.char?_eq_none_iff.mp hnone)
            exact Piece.exists_raw? hd
          have hne : some d ≠ some '/' := fun hd' => by
            rw [hd', Piece.raw?_eq_some_iff (by decide) (by decide)] at hd
            exact hslash (Piece.eq_char_of_char? hd (by decide))
          refine comes_peek_bind_cons hd ?_
          simp only [if_neg hundecodable', if_neg hslash, if_neg hne, bind_assoc]
          exact hcount
    · have hpiece : p.piece ≠ .char '*' := fun hp => by
        rw [hp] at hc
        exact hstar (Option.some.inj hc).symm
      simp only [if_neg hpiece, if_neg hstar, pure_bind, bind_assoc, reduceCtorEq, if_false]
      exact hcount

/-- A slash that opens no comment is a token. -/
theorem finish_slash : finish limits edge (.ok (some ('/', start)), rest) =
    Scan.withNext edge rest fun _ more => (.ok ⟨.symbol .slash, start⟩, more) := by
  -- No symbol has a slash as the first of two characters.
  have htoken : Scan.token limits edge start '/' rest =
      Scan.withNext edge rest fun _ more => (.ok (.symbol .slash), more) := by
    have hpair : ∀ next : Option Char, next.bind (Symbol.pair? '/') = none := by
      rintro (_ | d)
      · rfl
      · rfl
    show Scan.symbol edge start '/' rest = _
    unfold Scan.symbol
    rw [if_pos (by decide)]
    simp only [hpair]
    rfl
  show ((Scan.token limits edge start '/' rest).1.map _,
    (Scan.token limits edge start '/' rest).2) = _
  rw [htoken]
  unfold Scan.withNext
  split <;> rfl

/-- What is made of a result is come to if the result is. -/
theorem comes_map {α β : Type} {m : Scanning α} {outcome : Scan.Outcome α} (g : α → β)
    (h : Comes limits edge ahead buffer m outcome) :
    Comes limits edge ahead buffer (m >>= fun a => pure (g a)) (outcome.1.map g, outcome.2) := by
  intro s hs
  obtain ⟨s', buffer', hm, hs'⟩ := h s hs
  refine ⟨s', buffer', ?_, hs'⟩
  cases hresult : outcome.1 with
  | ok a =>
    rw [hresult] at hm
    exact Running.bind_of_ok hm
  | error e =>
    rw [hresult] at hm
    exact Running.bind_of_error hm

/-- Behind a slash, a scanner skips the comment that a scan skips. -/
theorem comes_slash (h : ScansBelow limits edge n) (hplain : Plain rest)
    (hlength : rest.length < n) (hp : p.piece = .char '/') :
    Comes limits edge rest buffer
      (do
        match ← peek with
        | some '/' =>
          let _ ← bump
          skipLine p.position 0
          scan
        | some '*' =>
          let _ ← bump
          skipBlock p.position 0
          scan
        | _ => return ⟨.symbol .slash, p.position⟩)
      (finish limits edge (Scan.skip limits edge (p :: rest))) := by
  have hblank : Text.isBlank '/' = false := by decide
  rw [Scan.skip, hp]
  simp only [hblank, Bool.false_eq_true, if_false, if_true]
  cases rest with
  | nil =>
    -- Nothing is behind the slash, which is a symbol then.
    rw [finish_slash]
    refine comes_peek_bind fun next more hpeek => ?_
    obtain ⟨rfl, rfl⟩ := eq_none_of_peek_nil hpeek
    exact comes_pure _
  | cons q more =>
    obtain ⟨-, hmore⟩ := List.forall_mem_cons.mp hplain
    rw [List.length_cons] at hlength
    -- A character shows itself.
    have hshown : ∀ {d : Char}, q.piece = .char d →
        q.piece.raw? = some d ∧ q.piece.char? = some d := by
      intro d hd
      rw [hd]
      exact ⟨rfl, rfl⟩
    by_cases hline : q.piece = .char '/'
    · simp only [if_pos hline]
      exact comes_peek_bind_cons (hshown hline).1
        (comes_bump_bind (hshown hline).2 (comes_skipLine_bind h hmore (by omega)))
    by_cases hblock : q.piece = .char '*'
    · simp only [if_neg hline, if_pos hblock]
      exact comes_peek_bind_cons (hshown hblock).1
        (comes_bump_bind (hshown hblock).2 (comes_skipBlock_bind h hmore (by omega)))
    simp only [if_neg hline, if_neg hblock, finish_slash]
    refine comes_peek_bind fun next more' hpeek => ?_
    -- What is shown is neither a slash nor a star.
    have hne : ∀ d, q.piece ≠ .char d → d ≠ '\n' → d ≠ '\r' → next ≠ some d := by
      rintro d hd hfeed hreturn rfl
      cases hraw : q.piece.raw? with
      | none => simp [Edge.peek, hraw] at hpeek
      | some e =>
        simp only [Edge.peek, hraw, Prod.mk.injEq, Except.ok.injEq, Option.some.injEq] at hpeek
        rw [hpeek.1, Piece.raw?_eq_some_iff hfeed hreturn] at hraw
        exact hd (Piece.eq_char_of_char? hraw hfeed)
    split
    · exact absurd rfl (hne '/' hline (by decide) (by decide))
    · exact absurd rfl (hne '*' hblock (by decide) (by decide))
    · exact comes_pure _

/-- A scanner finds what a scan finds, whatever it has in its buffer. -/
theorem comes_scan (hplain : Plain ahead) :
    Comes limits edge ahead buffer scan (Scan.lexeme limits edge ahead) := by
  rw [lexeme_eq_finish]
  induction hn : ahead.length using Nat.strong_induction_on generalizing ahead buffer with
  | _ n ih =>
    subst hn
    have hbelow : ScansBelow limits edge ahead.length :=
      fun ahead' buffer' hplain' hlt => ih ahead'.length hlt hplain' rfl
    rw [scan_eq]
    refine comes_position_bind ?_
    cases ahead with
    | nil =>
      -- At the edge, the scan gives the end of the source, or the failure.
      have hedge : finish limits edge (Scan.skip limits edge []) =
          Scan.atEdge edge (.ok ⟨.endOfFile, edge.position⟩) := by
        rw [Scan.skip]
        unfold Scan.atEdge
        cases edge.failure <;> rfl
      rw [hedge]
      exact comes_bump_bind_nil (comes_pure _)
    | cons p rest =>
      obtain ⟨-, hrest⟩ := List.forall_mem_cons.mp hplain
      cases hp : p.piece with
      | undecodable =>
        rw [Scan.skip, hp]
        exact comes_bump_bind_of_undecodable hp
      | lineBreak style =>
        rw [Scan.skip, hp]
        refine comes_bump_bind (by rw [hp]; rfl) ?_
        exact hbelow rest buffer hrest (Nat.lt_succ_self _)
      | char c =>
        refine comes_bump_bind (by rw [hp]; rfl) ?_
        by_cases hblank : Text.isBlank c = true
        · -- A blank is skipped, and the scan goes on with less ahead.
          rw [Scan.skip, hp]
          simp only [if_pos hblank]
          exact hbelow rest buffer hrest (Nat.lt_succ_self _)
        by_cases hslash : c = '/'
        · -- A slash may open a comment.
          subst hslash
          exact comes_slash hbelow hrest (Nat.lt_succ_self _) hp
        · rw [Scan.skip, hp]
          simp only [if_neg hblank, if_neg hslash]
          exact comes_map _ comes_token

/-- The pieces of a reader have line breaks as pieces of their own. -/
theorem Stands.plain {s : Scanner} (hs : s.Stands limits edge ahead buffer) : Plain ahead := by
  have hahead : ahead.map (·.piece) = s.reader.pieces := by
    rw [← Source.map_piece_place s.reader.pieces s.reader.position]
    exact congrArg (fun src : Source => src.ahead.map (·.piece)) hs.source.symm
  have hpiece : ∀ {b : Char}, b = '\n' ∨ b = '\r' → ∀ q ∈ s.reader.pieces, q ≠ .char b := by
    intro b hb q hq
    rcases List.mem_append.mp hq with hq | hq
    · exact Source.piecesOfChars_ne_break hb _ q hq
    · exact Source.piecesOfLines_ne_break hb _ q hq
  intro p hp
  have hmem : p.piece ∈ s.reader.pieces := hahead ▸ List.mem_map_of_mem hp
  exact ⟨hpiece (.inl rfl) _ hmem, hpiece (.inr rfl) _ hmem⟩

/-! ## Requests -/

/-- The source that is left of a scanner. -/
def source (s : Scanner) : Source := s.reader.source

/-- Every request is answered as it is from the source, and leaves what it leaves of the source. -/
theorem scan_source {s : Scanner} (hvalid : s.reader.Valid) : ∃ s',
    scan s = some ((s.source.lexeme s.limits).1, s') ∧ s'.reader.Valid ∧
      s'.source = (s.source.lexeme s.limits).2 ∧ s'.limits = s.limits := by
  have hs : s.Stands s.limits s.source.edge s.source.ahead s.buffer := ⟨hvalid, rfl, rfl, rfl⟩
  obtain ⟨s', buffer', hscan, hs'⟩ := comes_scan hs.plain s hs
  exact ⟨s', hscan, hs'.valid, hs'.source, hs'.limits⟩

/-- The scanner after a number of requests. -/
noncomputable def after : Nat → Scanner → Option Scanner
  | 0, s => some s
  | k + 1, s => (scan s).bind fun (_, s') => after k s'

/-- Requests and further ones are made one behind the other. -/
theorem after_add (j k : Nat) (s : Scanner) : after (j + k) s = (after j s).bind (after k) := by
  induction j generalizing s with
  | zero =>
    rw [Nat.zero_add]
    rfl
  | succ j ih =>
    rw [Nat.add_right_comm, after, after, Option.bind_assoc]
    exact congrArg (scan s).bind (funext fun (_, s') => ih s')

/-- Requests leave the same of the same source, whatever else the readers and buffers hold. -/
theorem after_source (k : Nat) {s t s' : Scanner} (hs : s.reader.Valid) (ht : t.reader.Valid)
    (hsource : s.source = t.source) (hlimits : s.limits = t.limits) (hafter : after k s = some s') :
    ∃ t', after k t = some t' ∧ s'.source = t'.source := by
  induction k generalizing s t with
  | zero => exact ⟨t, rfl, Option.some.inj hafter ▸ hsource⟩
  | succ k ih =>
    obtain ⟨s₁, hscan, hvalid, hleft, hkeeps⟩ := scan_source hs
    obtain ⟨t₁, hscan', hvalid', hleft', hkeeps'⟩ := scan_source ht
    rw [after, hscan] at hafter
    rw [after, hscan']
    refine ih hvalid hvalid' ?_ ?_ hafter
    · rw [hleft, hleft', hsource, hlimits]
    · rw [hkeeps, hkeeps', hlimits]

end Scanner

end Brisk
