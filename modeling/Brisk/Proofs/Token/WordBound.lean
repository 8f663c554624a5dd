import Brisk.Proofs.Source.Breaks
import Brisk.Proofs.Token.Requests
import Brisk.Proofs.Token.Written

/-!
# The bound on words

Wherever a token starts with a word, the word is taken to its last character, and it is the token if
it keeps the bound, and refused where it starts if it does not (`Lexer.word_bounded`). What stands
behind a word has no part in this: a word is followed by a character of its own line or by the end
of the source, so looking at what follows it is never an error (`Source.peek_behind_char`).

The bound is checked with every character but the first, so the shortest bound that can be kept is
one: under a bound of zero, words of one character are accepted
(`Lexer.word_accepted_beyond_bound`).
-/

namespace Brisk

/-- Behind a character that breaks no line the next character can be shown, or the source ends. -/
theorem Source.peek_behind_char {bytes : List UInt8} {ending : Ending} {front rest : List Placed}
    {p : Placed} {c : Char} (h : (ofBytes bytes ending).ahead = front ++ p :: rest)
    (hp : p.piece = .char c) :
    ∃ next, (ofBytes bytes ending).edge.peek rest = (.ok next, rest) := by
  have hfollows := follows_ofBytes bytes ending
  rw [h, List.map_append, List.map_cons, hp] at hfollows
  cases rest with
  | nil =>
    -- A failure would stand behind the end of a line.
    have hfailure : (ofBytes bytes ending).edge.failure = none := by
      by_contra hne
      have hends := endsLine_ofBytes hne (.char c)
      rw [h, List.map_append, List.map_cons, hp, List.map_nil, List.getLast?_concat] at hends
      exact hends rfl
    refine ⟨none, ?_⟩
    unfold Edge.peek Edge.close
    rw [hfailure]
  | cons q more =>
    -- What cannot be decoded would start a line of its own.
    have hq : q.piece ≠ .undecodable := by
      intro hq
      have hnext := hfollows.right_of_append
      rw [List.map_cons, List.isChain_cons_cons] at hnext
      exact (hnext.1.2 hq).elim
    unfold Edge.peek
    cases hpiece : q.piece with
    | char d => exact ⟨some d, by simp [hpiece, Piece.raw?]⟩
    | lineBreak style => exact ⟨some style.first, by simp [hpiece, Piece.raw?]⟩
    | undecodable => exact absurd hpiece hq

/-- The last piece of a text without line breaks is a character. -/
theorem Spells.exists_last {p : Placed} {c : Char} {rest rest' : List Placed} {cs : List Char}
    (hp : p.piece = .char c) (h : Spells rest cs rest') (hcs : '\n' ∉ cs) :
    ∃ front q d, p :: rest = front ++ q :: rest' ∧ q.piece = .char d := by
  induction h generalizing p c with
  | nil => exact ⟨[], p, c, rfl, hp⟩
  | @cons q rest rest' d cs hd _ ih =>
    rw [List.mem_cons, not_or] at hcs
    obtain ⟨front, q', d', heq, hq'⟩ := ih (Piece.eq_char_of_char? hd (Ne.symm hcs.1)) hcs.2
    exact ⟨p :: front, q', d', by rw [heq]; rfl, hq'⟩

namespace Scan

variable {limits : Limits} {edge : Edge} {ahead rest rest' : List Placed} {c : Char}
  {cs : List Char} {p : Position}

/-- Where skipping has found a character, it stands in front of what is left. -/
theorem exists_skipped (h : skip limits edge ahead = (.ok (some (c, p)), rest)) :
    ∃ skipped, ahead = skipped ++ ⟨.char c, p⟩ :: rest := by
  obtain ⟨gap, mid, hspells, -, harrives, -⟩ := skip_sound ahead.length ahead (Nat.le_refl _) h
  obtain _ | hcomment := harrives
  obtain ⟨skipped, hskipped⟩ := hspells.suffix
  exact ⟨skipped, hskipped.symm⟩

/-- A word at which skipping arrives is what the next token is made of. -/
theorem lexeme_of_word (hskip : skip limits edge ahead = (.ok (some (c, p)), rest))
    (hc : startsWord c = true) : (lexeme limits edge ahead).1 =
      (word limits edge p c rest).1.map (⟨·, p⟩) := by
  have hquote : c ≠ '"' := by
    rintro rfl
    exact absurd hc (by decide)
  have hdigit : ¬c.isDigit = true := by
    intro hdigit
    rw [startsWord_of_isDigit hdigit] at hc
    exact absurd hc (by decide)
  unfold lexeme token
  rw [hskip]
  simp only [if_neg hquote, if_neg hdigit, if_pos hc]

/-- A word that is followed by something that can be looked at is accepted if it has one character
or keeps the bound. -/
theorem word_of_run (hrun : run continuesWord rest = (cs, rest'))
    (hnext : ∃ next, edge.peek rest' = (.ok next, rest')) :
    (word limits edge p c rest).1 =
      if (c :: cs).length ≤ max 1 limits.identifier then .ok (.ofWord (String.ofList (c :: cs)))
      else .error (.invalid p (.identifierTooLong limits.identifier)) := by
  obtain ⟨next, hnext⟩ := hnext
  have hbound : (c :: cs).length ≤ max 1 limits.identifier ↔
      ¬(cs ≠ [] ∧ limits.identifier < cs.length + 1) := by
    rw [← List.length_pos_iff, List.length_cons]
    omega
  unfold word withNext
  simp only [hrun, hnext, hbound, ite_not]
  split <;> rfl

end Scan

namespace Lexer

/-- Wherever a token starts with a word, the whole word decides: it is the token if it is not longer
than the bound, or has only one character, and it is refused at its first character otherwise.

The place is any part of a source of bytes that is left, from which skipping blanks and comments
arrives at the first character `c` of the word, and the word goes on with `cs` as far as it can. -/
theorem word_bounded (limits : Limits) (bytes : List UInt8) (ending : Source.Ending)
    (ahead rest rest' : List Placed) (c : Char) (cs : List Char) (p : Position) (finished : Bool)
    (hahead : ahead <:+ (Source.ofBytes bytes ending).ahead)
    (hskip : Scan.skip limits (Source.ofBytes bytes ending).edge ahead = (.ok (some (c, p)), rest))
    (hc : Scan.startsWord c = true) (hspells : Spells rest cs rest')
    (hcs : ∀ d ∈ cs, Scan.continuesWord d = true)
    (hmax : ∀ d, Spells rest' [d] (rest'.drop 1) → Scan.continuesWord d = false) :
    (∃ skipped, ahead = skipped ++ ⟨.char c, p⟩ :: rest) ∧
    (Lexer.next ⟨limits, ⟨ahead, (Source.ofBytes bytes ending).edge⟩, finished⟩).1 =
      if (c :: cs).length ≤ max 1 limits.identifier then
        .ok ⟨.ofWord (String.ofList (c :: cs)), p⟩
      else .error (.invalid p (.identifierTooLong limits.identifier)) := by
  obtain ⟨skipped, hskipped⟩ := Scan.exists_skipped hskip
  have hbreak : '\n' ∉ cs := fun hmem => absurd (hcs _ hmem) (by decide)
  -- The last character of the word is followed by something that can be looked at.
  obtain ⟨front, q, d, hlast, hq⟩ := hspells.exists_last (p := ⟨.char c, p⟩) rfl hbreak
  have hnext : ∃ next, (Source.ofBytes bytes ending).edge.peek rest' = (.ok next, rest') := by
    obtain ⟨before, hbefore⟩ := hahead
    have hwhole : (Source.ofBytes bytes ending).ahead =
        (before ++ (skipped ++ front)) ++ q :: rest' := by
      rw [← hbefore, hskipped, hlast, List.append_assoc, List.append_assoc]
    exact Source.peek_behind_char hwhole hq
  -- The word is the longest run, since what follows does not go on with it.
  have hrun : Scan.run Scan.continuesWord rest = (cs, rest') := by
    refine Scan.run_of_spells (by decide) hspells hcs ?_
    rintro q more d rfl hq
    exact hmax d (.single (by rw [hq]; rfl))
  refine ⟨⟨skipped, hskipped⟩, ?_⟩
  have hlexeme := Scan.lexeme_of_word hskip hc
  rw [Scan.word_of_run hrun hnext] at hlexeme
  show (Scan.lexeme limits (Source.ofBytes bytes ending).edge ahead).1 = _
  rw [hlexeme]
  split <;> rfl

/-- Behind a blank, the word of three letters is accepted under a bound of three, and refused under
a bound of two. -/
theorem word_bounded_let :
    (Lexer.next ⟨.uniform 3, .ofBytes (Text.bytes " let;") .endOfFile, false⟩).1 =
        .ok ⟨.keyword .letKey, ⟨1, 2⟩⟩ ∧
      (Lexer.next ⟨.uniform 2, .ofBytes (Text.bytes " let;") .endOfFile, false⟩).1 =
        .error (.invalid ⟨1, 2⟩ (.identifierTooLong 2)) := by
  have hspells : Spells [⟨.char 'e', ⟨1, 3⟩⟩, ⟨.char 't', ⟨1, 4⟩⟩, ⟨.char ';', ⟨1, 5⟩⟩] ['e', 't']
      [⟨.char ';', ⟨1, 5⟩⟩] := .cons rfl (.cons rfl (.nil _))
  -- Behind the first character, letters go on with the word, and the semicolon ends it.
  have hcs : ∀ d ∈ ['e', 't'], Scan.continuesWord d = true := by
    rw [List.forall_mem_cons, List.forall_mem_singleton]
    decide
  have hmax : ∀ d, Spells [⟨.char ';', ⟨1, 5⟩⟩] [d] [] → Scan.continuesWord d = false := by
    intro d hd
    obtain _ | ⟨hd, -⟩ := hd
    obtain rfl := Option.some.inj hd
    decide
  constructor
  · exact (word_bounded (.uniform 3) (Text.bytes " let;") .endOfFile _ _ _ 'l' ['e', 't'] ⟨1, 2⟩
      false (List.suffix_refl _) (by decide) (by decide) hspells hcs hmax).2.trans
      (by decide)
  · exact (word_bounded (.uniform 2) (Text.bytes " let;") .endOfFile _ _ _ 'l' ['e', 't'] ⟨1, 2⟩
      false (List.suffix_refl _) (by decide) (by decide) hspells hcs hmax).2.trans
      (by decide)

/-- Under a bound of zero a word of one character is longer than the bound, and it is accepted. -/
theorem word_accepted_beyond_bound :
    ¬"a".length ≤ (Limits.uniform 0).identifier ∧
      (Lexer.next ⟨.uniform 0, .ofBytes (Text.bytes "a") .endOfFile, false⟩).1 =
        .ok ⟨.identifier "a", .start⟩ := by
  decide

end Lexer

end Brisk
