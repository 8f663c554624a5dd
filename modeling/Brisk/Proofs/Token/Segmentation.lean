import Brisk.Proofs.Source.Lines
import Brisk.Proofs.Token.Stream
import Mathlib.Data.List.Induction

/-!
# Lexing cuts a source into segments

When iterating over a lexer gives no error, the text of the source, with all line breaks written as
line feeds, is the concatenation of segments that fit, and the lexemes are the tokens among them at
their positions (`Lexer.segments_of_yields`).

The proof goes along the iteration. What has been consumed is a prefix of the text, and the pieces
that are left stand at the position behind it; one scan adds the segments that it has skipped and
the token that it has found.
-/

namespace Brisk

/-! ## Texts and positions -/

/-- A text with every line break, in any of its styles, written as a line feed. -/
def Text.normalize : List Char → List Char
  | [] => []
  | '\r' :: '\n' :: cs => '\n' :: normalize cs
  | c :: cs => (if c = '\r' then '\n' else c) :: normalize cs

/-- The position behind a text from its beginning: the number of line feeds in it and the number of
characters behind the last of them, both counted from one. -/
def Position.ofText (cs : List Char) : Position :=
  ⟨1 + cs.count '\n', 1 + (cs.reverse.takeWhile (· ≠ '\n')).length⟩

/-- Positions are counted on from the start of the text. -/
theorem Position.ofText_eq_behind (cs : List Char) : ofText cs = start.behind cs := by
  -- By induction from the right, as the last line of a text is at its end.
  induction cs using List.reverseRecOn with
  | nil => rfl
  | append_singleton cs c ih =>
    rw [behind_append, ← ih, behind_cons, behind_nil]
    unfold ofText
    rw [List.count_append, List.reverse_append, List.reverse_singleton, List.singleton_append]
    by_cases hc : c = '\n'
    · subst hc
      rw [if_pos rfl, List.takeWhile_cons_of_neg (by simp), List.count_singleton_self]
      rfl
    · have hcount : [c].count '\n' = 0 := by simp [hc]
      rw [if_neg hc, List.takeWhile_cons_of_pos (by simpa using hc), hcount, List.length_cons]
      rfl

/-- The position behind a text is found from behind any beginning of it. -/
theorem Position.ofText_append (cs cs' : List Char) :
    ofText (cs ++ cs') = (ofText cs).behind cs' := by
  rw [ofText_eq_behind, ofText_eq_behind, behind_append]

/-- The pieces of a text spell it with its line breaks as line feeds. -/
theorem Source.spells_place (cs : List Char) (p : Position) :
    Spells (place p (piecesOfChars cs)).1 (Text.normalize cs) [] := by
  induction cs using Text.normalize.induct generalizing p with
  | case1 => exact .nil []
  | case2 cs ih =>
    rw [piecesOfChars, Text.normalize]
    exact .cons rfl (ih _)
  | case3 c cs hbreak ih =>
    rw [piecesOfChars, Text.normalize]
    · refine .cons ?_ (ih _)
      by_cases hcr : c = '\r'
      · rw [if_pos hcr, if_pos hcr]
        rfl
      rw [if_neg hcr, if_neg hcr]
      by_cases hlf : c = '\n'
      · rw [if_pos hlf, hlf]
        rfl
      · rw [if_neg hlf]
        rfl
    · exact hbreak
    · exact hbreak

/-! ## Segments and lexemes -/

namespace Segment

/-- The lexemes that segments are behind the text `before`: their tokens, each with the position of
its first character, and the end of the file behind them. -/
def lexemes (before : List Char) : List Segment → List Lexeme
  | [] => [⟨.endOfFile, .ofText before⟩]
  | .token text t :: segments => ⟨t, .ofText before⟩ :: lexemes (before ++ text) segments
  | segment :: segments => lexemes (before ++ segment.text) segments

/-- Segments between tokens are no lexemes. -/
theorem lexemes_append {gap : List Segment} (hgap : ∀ segment ∈ gap, segment.IsGap)
    (before : List Char) (segments : List Segment) :
    lexemes before (gap ++ segments) = lexemes (before ++ texts gap) segments := by
  induction gap generalizing before with
  | nil => rw [texts_nil, List.append_nil, List.nil_append]
  | cons segment gap ih =>
    -- What stands before a segment grows by every segment that is skipped.
    have htail := ih (fun s hs => hgap s (List.mem_cons_of_mem segment hs)) (before ++ segment.text)
    rw [texts_cons, ← List.append_assoc, ← htail]
    cases segment with
    | token text t => exact absurd (hgap _ List.mem_cons_self) (by simp [IsGap])
    | blank | lineComment | blockComment => rfl

end Segment

namespace Lexer

/-- The segments of what is left of a source, behind the text `before`. -/
theorem segments_of_laid {limits : Limits} (hlimit : 1 ≤ limits.identifier) {ls : List Lexeme}
    {src : Source} (h : Yields ⟨limits, src, false⟩ ls) {before text : List Char}
    (hlaid : Laid src.edge.position (.ofText before) src.ahead) (htext : Spells src.ahead text []) :
    ∃ segments, Segment.texts segments = text ∧ Segment.AllFit limits [] segments ∧
      ls = Segment.lexemes before segments := by
  induction ls generalizing src before text with
  | nil => exact absurd rfl h.ne_nil
  | cons l ls ih =>
    obtain ⟨l', src', hl, hls⟩ := yields_iff.mp h
    obtain ⟨hscan, hedge⟩ := Source.lexeme_eq_ok_iff.mp hl
    obtain ⟨gap, mid, hspells, hgap, hfit, htoken⟩ := Scan.lexeme_sound hscan
    -- The text that is left is what was skipped, and then what the rest of the pieces spells.
    obtain ⟨after, rfl, hafter⟩ := htext.split hspells
    have hgapfit := hfit hlaid.piece_ne_lineFeed after hafter
    have hmid : Laid src.edge.position (.ofText (before ++ Segment.texts gap)) mid := by
      rw [Position.ofText_append]
      exact hlaid.of_spells hspells
    rcases htoken with ⟨-, rfl, -, rfl⟩ | ⟨c, more, token, rfl, hscanned, hcomment⟩
    · -- The end of the source: the segments are those that were skipped.
      obtain rfl : after = [] := by
        cases hafter
        rfl
      have hposition : Position.ofText (before ++ Segment.texts gap) = src.edge.position := hmid
      refine ⟨gap, by rw [List.append_nil], hgapfit, ?_⟩
      have hlexemes := Segment.lexemes_append hgap before []
      rw [List.append_nil] at hlexemes
      rw [hlexemes, Segment.lexemes, hposition]
      rcases hls with ⟨-, hls⟩ | ⟨hne, -⟩
      · exact hls
      · exact absurd rfl hne
    · -- A token: it is a segment behind those that were skipped, and the others follow.
      obtain _ | ⟨hc, hafter⟩ := hafter
      obtain rfl := Option.some.inj hc
      obtain ⟨after, rfl, hrest⟩ := hafter.split hscanned.spells
      rcases hls with ⟨hend, -⟩ | ⟨-, ls', hls, hyields⟩
      · exact absurd hend hscanned.spelling.ne_endOfFile
      obtain ⟨rfl, rfl⟩ := List.cons.inj hls
      have hposition : l.position = .ofText (before ++ Segment.texts gap) := hmid.1
      have hbehind : Laid src'.edge.position
          (.ofText (before ++ Segment.texts gap ++ c :: token)) src'.ahead := by
        rw [hedge, Position.ofText_append]
        exact hmid.of_spells (.cons rfl hscanned.spells)
      obtain ⟨segments, rfl, hallfit, rfl⟩ := ih hyields hbehind hrest
      refine ⟨gap ++ .token (c :: token) l.token :: segments, ?_, ?_, ?_⟩
      · rw [Segment.texts_append, Segment.texts_cons]
        rfl
      · refine Segment.AllFit.append ?_ ⟨?_, hallfit⟩
        · rw [Segment.texts_cons, List.append_nil]
          exact hgapfit
        · rw [List.append_nil]
          exact ⟨hscanned.spelling, hscanned.longest _ hrest, hcomment _ hafter,
            hscanned.within hlimit⟩
      · rw [Segment.lexemes_append hgap, Segment.lexemes, ← hposition]

/-- If a source is a text in UTF-8 and iterating over it gives no error, then the text, with line
feeds for its line breaks, is cut into segments without a gap or an overlap: blank characters,
comments that end with their line or at the first star and slash, and tokens that are the longest
ones in their places, where no comment starts. The lexemes are the tokens of these segments, each
with the position of its first character, and the end of the file. -/
theorem segments_of_yields {limits : Limits} (hlimit : 1 ≤ limits.identifier) {bytes : List UInt8}
    {s : String} (hs : Text.ofBytes? bytes = some s) {ls : List Lexeme}
    (h : Yields ⟨limits, .ofBytes bytes .endOfFile, false⟩ ls) :
    ∃ segments, Segment.texts segments = Text.normalize s.toList ∧
      Segment.AllFit limits [] segments ∧ ls = Segment.lexemes [] segments := by
  rw [Source.ofBytes_eq_ofString hs] at h
  have hlaid := Source.laid_place (Source.piecesOfChars_ne_lineFeed s.toList) .start
  exact segments_of_laid hlimit h hlaid (Source.spells_place s.toList .start)

/-- Comments of both kinds, a break of two characters and an escape sequence. -/
theorem segments_of_yields_comments :
    ∃ segments, Segment.texts segments =
        Text.normalize "a<=\"\\n\" // c\r\n/**/12".toList ∧
      Segment.AllFit .standard [] segments ∧
      Segment.lexemes [] segments = [⟨.identifier "a", ⟨1, 1⟩⟩, ⟨.symbol .lessEqual, ⟨1, 2⟩⟩,
        ⟨.str "\n", ⟨1, 4⟩⟩, ⟨.int 12, ⟨2, 5⟩⟩, ⟨.endOfFile, ⟨2, 7⟩⟩] := by
  have hlexed : (Source.ofBytes (Text.bytes "a<=\"\\n\" // c\r\n/**/12") .endOfFile).lexed
      .standard 19 = ([⟨.identifier "a", ⟨1, 1⟩⟩, ⟨.symbol .lessEqual, ⟨1, 2⟩⟩,
        ⟨.str "\n", ⟨1, 4⟩⟩, ⟨.int 12, ⟨2, 5⟩⟩] : List Lexeme).map .ok := by
    decide +kernel
  have hyields := yields_of_lexed 19 (by decide +kernel) hlexed rfl
  have hstop : (Source.ofBytes (Text.bytes "a<=\"\\n\" // c\r\n/**/12") .endOfFile).edge.position =
      ⟨2, 7⟩ := by
    decide +kernel
  rw [hstop] at hyields
  obtain ⟨segments, htexts, hfit, hlexemes⟩ :=
    segments_of_yields (by decide) (Text.ofBytes?_bytes _) hyields
  exact ⟨segments, htexts, hfit, hlexemes.symm⟩

end Lexer

end Brisk
