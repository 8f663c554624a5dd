import Brisk.Proofs.Source.Append
import Brisk.Proofs.Token.Blanks
import Mathlib.Data.List.Chain

/-!
# What stands behind what

Cutting bytes into lines and decoding the lines one by one does not put every piece behind every
other one. A carriage return is never followed by a piece that is a line feed, since the two are one
piece, and a line that cannot be decoded stands at the start or behind the end of another line
(`Piece.Follows`, `Source.follows_ofBytes`). The same holds for the failure of a source: only whole
lines are delivered in front of it (`Source.endsLine_ofBytes`).

So pieces that are written out again (`Piece.written`) run into each other nowhere: reading them
gives their text with its line breaks as line feeds, for any part of a source as for the whole of it
(`Piece.normalize_written`).
-/

namespace Brisk

/-! ## Cutting off lines -/

namespace Source

/-- Cuts the first line off bytes, with the line feed that ends it. -/
def cutLine : List UInt8 → List UInt8 × List UInt8
  | [] => ([], [])
  | b :: bytes =>
    if b = 10 then ([b], bytes)
    else
      let (line, rest) := cutLine bytes
      (b :: line, rest)

variable {bytes : List UInt8}

/-- Bytes are cut into lines one by one. -/
theorem lines_eq_cutLine (h : bytes ≠ []) :
    lines bytes = (cutLine bytes).1 :: lines (cutLine bytes).2 := by
  induction bytes with
  | nil => exact absurd rfl h
  | cons b bytes ih =>
    rw [lines, cutLine]
    split
    · rfl
    · cases bytes with
      | nil => rfl
      | cons b' bytes =>
        rw [ih (by simp)]

/-- A line that has been cut off is not empty, and it is complete unless it is the last one. -/
theorem cutLine_spec (h : bytes ≠ []) :
    (cutLine bytes).1 ≠ [] ∧ (isComplete (cutLine bytes).1 = true ∨ (cutLine bytes).2 = []) ∧
      (cutLine bytes).2.length < bytes.length := by
  induction bytes with
  | nil => exact absurd rfl h
  | cons b bytes ih =>
    rw [cutLine]
    split
    · next hb => exact ⟨by simp, .inl (by simp [isComplete, hb]), Nat.lt_succ_self _⟩
    · -- No line feed ends the line here, so it goes on with the following bytes.
      cases bytes with
      | nil => exact ⟨by simp, .inr rfl, Nat.lt_succ_self _⟩
      | cons b' bytes =>
        obtain ⟨hne, hcomplete, hlt⟩ := ih (by simp)
        refine ⟨by simp, hcomplete.imp_left fun hlast => ?_, Nat.lt_succ_of_lt hlt⟩
        obtain ⟨b'', line, hline⟩ := List.exists_cons_of_ne_nil hne
        show isComplete (b :: (cutLine (b' :: bytes)).1) = true
        rw [hline] at hlast ⊢
        exact hlast

/-- Only the last line may lack the line feed that ends it. -/
theorem isComplete_lines (bytes : List UInt8) :
    (lines bytes).IsChain fun line _ => isComplete line = true := by
  induction hn : bytes.length using Nat.strong_induction_on generalizing bytes with
  | h n ih =>
    by_cases hbytes : bytes = []
    · rw [hbytes]
      exact .nil
    · obtain ⟨-, hcomplete, hlt⟩ := cutLine_spec hbytes
      -- The first line is complete, or it is the last one.
      rw [lines_eq_cutLine hbytes]
      refine (ih _ (hn ▸ hlt) _ rfl).cons fun line hline => ?_
      rcases hcomplete with hcomplete | hrest
      · exact hcomplete
      · rw [hrest] at hline
        exact absurd hline (by simp [lines])

/-- The same holds for the lines that are delivered, and before a failure also the last line is
complete. -/
theorem isComplete_delivered (bytes : List UInt8) (ending : Ending) :
    ((ending.delivered (lines bytes)).IsChain fun line _ => isComplete line = true) ∧
      (ending ≠ .endOfFile →
        ∀ line ∈ ending.delivered (lines bytes), isComplete line = true) := by
  have hfilter : ∀ line ∈ (lines bytes).filter isComplete, isComplete line = true :=
    fun line hline => (List.mem_filter.mp hline).2
  have hchain : ((lines bytes).filter isComplete).IsChain fun line _ => isComplete line = true :=
    List.Pairwise.isChain (List.pairwise_of_forall_mem_list fun line hline _ _ =>
      hfilter line hline)
  cases ending with
  | endOfFile => exact ⟨isComplete_lines bytes, fun h => absurd rfl h⟩
  | failing reason => exact ⟨hchain, fun _ => hfilter⟩
  | garbled => exact ⟨hchain, fun _ => hfilter⟩

/-- A line that can be decoded is cut into the pieces of its characters. -/
theorem piecesOfLine_of_decoded {line : List UInt8} {s : String}
    (h : Text.ofBytes? line = some s) : piecesOfLine line = piecesOfChars s.toList := by
  unfold piecesOfLine
  rw [h]

/-- A line that cannot be decoded is one piece. -/
theorem piecesOfLine_of_undecodable {line : List UInt8} (h : Text.ofBytes? line = none) :
    piecesOfLine line = [.undecodable] := by
  unfold piecesOfLine
  rw [h]

end Source

/-! ## Pieces behind one another -/

/-- Whether a piece can be the last one of a complete line. -/
def Piece.EndsLine : Piece → Prop
  | .char _ => False
  | .lineBreak style => style ≠ .carriageReturn
  | .undecodable => True

/-- Whether the second piece can stand behind the first one. -/
def Piece.Follows (p q : Piece) : Prop :=
  (p = .lineBreak .carriageReturn → q ≠ .lineBreak .lineFeed) ∧ (q = .undecodable → p.EndsLine)

/-- Every piece can stand behind the end of a line. -/
theorem Piece.EndsLine.follows {p q : Piece} (h : p.EndsLine) : p.Follows q := by
  refine ⟨?_, fun _ => h⟩
  rintro rfl
  exact absurd rfl h

namespace Source

/-- A text can be decoded, and a line feed comes first among its pieces if it comes first in the
text. -/
theorem head?_piecesOfChars {cs : List Char} {q : Piece} (h : q ∈ (piecesOfChars cs).head?) :
    q ≠ .undecodable ∧ (q = .lineBreak .lineFeed → cs.head? = some '\n') := by
  fun_cases piecesOfChars cs with
  | case1 => exact absurd h (by simp [piecesOfChars])
  -- A carriage return and a line feed are one break, of which the line feed is no piece.
  | case2 cs =>
    obtain rfl : .lineBreak .both = q := by simpa [piecesOfChars] using h
    exact ⟨by simp, by simp⟩
  | case3 c cs hbreak =>
    -- Only a line feed itself is a piece of that break.
    rw [piecesOfChars, List.head?_cons, Option.mem_some_iff] at h
    · subst h
      split
      · exact ⟨by simp, by simp⟩
      split
      · next hc => exact ⟨by simp, by simp [hc]⟩
      · exact ⟨by simp, by simp⟩
    · exact hbreak

/-- The pieces of a text may follow one another. -/
theorem follows_piecesOfChars (cs : List Char) : (piecesOfChars cs).IsChain Piece.Follows := by
  fun_induction piecesOfChars cs with
  | case1 => exact .nil
  | case2 cs ih =>
    have hboth : (Piece.lineBreak .both).EndsLine := by simp [Piece.EndsLine]
    exact ih.cons fun q _ => hboth.follows
  | case3 c cs hbreak ih =>
    refine ih.cons fun q hq => ?_
    obtain ⟨hdecoded, hfirst⟩ := head?_piecesOfChars hq
    refine ⟨fun hc hlf => ?_, fun h => absurd h hdecoded⟩
    -- The line feed would stand behind the carriage return `c`, and be in the same piece.
    have hcr : c = '\r' := by
      by_contra hne
      rw [if_neg hne] at hc
      split at hc <;> exact absurd hc (by simp)
    obtain ⟨cs', rfl⟩ := List.head?_eq_some_iff.mp (hfirst hlf)
    exact hbreak cs' hcr rfl

/-- The pieces of a line may follow one another. -/
theorem follows_piecesOfLine (line : List UInt8) : (piecesOfLine line).IsChain Piece.Follows := by
  unfold piecesOfLine
  split
  · exact follows_piecesOfChars _
  · exact .singleton _

/-- A complete line ends with the end of a line. -/
theorem endsLine_piecesOfLine {line : List UInt8} (h : isComplete line = true) :
    ∃ q, (piecesOfLine line).getLast? = some q ∧ q.EndsLine := by
  cases hdecoded : Text.ofBytes? line with
  | none =>
    rw [piecesOfLine_of_undecodable hdecoded]
    exact ⟨.undecodable, rfl, trivial⟩
  | some s =>
    obtain ⟨style, hstyle, hlast⟩ := getLast?_piecesOfChars
      (Text.getLast?_eq_lineFeed hdecoded (beq_iff_eq.mp h))
    rw [piecesOfLine_of_decoded hdecoded]
    exact ⟨.lineBreak style, hlast, hstyle⟩

/-- Pieces of lines stand behind one another if all lines but the last one are complete. -/
theorem follows_flatMap {ls : List (List UInt8)}
    (h : ls.IsChain fun line _ => isComplete line = true) :
    (ls.flatMap piecesOfLine).IsChain Piece.Follows := by
  induction ls with
  | nil => exact .nil
  | cons line ls ih =>
    rw [List.isChain_cons] at h
    rw [List.flatMap_cons]
    refine (follows_piecesOfLine line).append (ih h.2) fun p hp q hq => ?_
    -- Behind the last line there is nothing that might follow.
    cases ls with
    | nil => exact absurd hq (by simp)
    | cons line' ls =>
      -- A line in front of another one is complete, so its last piece may be followed by anything.
      obtain ⟨p', hp', hends⟩ := endsLine_piecesOfLine (h.1 line' rfl)
      obtain rfl : p' = p := Option.some.inj (hp'.symm.trans hp)
      exact hends.follows

/-- The pieces of a source of bytes stand behind one another. -/
theorem follows_ofBytes (bytes : List UInt8) (ending : Ending) :
    ((ofBytes bytes ending).ahead.map (·.piece)).IsChain Piece.Follows := by
  unfold ofBytes ofPieces
  rw [map_piece_place]
  exact follows_flatMap (isComplete_delivered bytes ending).1

/-- Line breaks are pieces of their own in lines of bytes. -/
theorem piecesOfLines_ne_break {b : Char} (hb : b = '\n' ∨ b = '\r') (lines : List (List UInt8)) :
    ∀ q ∈ lines.flatMap piecesOfLine, q ≠ .char b := by
  intro q hq
  obtain ⟨line, -, hq⟩ := List.mem_flatMap.mp hq
  unfold piecesOfLine at hq
  split at hq
  · exact piecesOfChars_ne_break hb _ q hq
  · rw [List.mem_singleton.mp hq]
    simp

/-- Line breaks are pieces of their own in a source of bytes. -/
theorem ne_break_ofBytes {b : Char} (hb : b = '\n' ∨ b = '\r') (bytes : List UInt8)
    (ending : Ending) : ∀ q ∈ (ofBytes bytes ending).ahead.map (·.piece), q ≠ .char b := by
  unfold ofBytes ofPieces
  rw [map_piece_place]
  exact piecesOfLines_ne_break hb _

/-- In front of a failure stands the end of a line. -/
theorem endsLine_ofBytes {bytes : List UInt8} {ending : Ending}
    (h : (ofBytes bytes ending).edge.failure ≠ none) :
    ∀ p ∈ ((ofBytes bytes ending).ahead.map (·.piece)).getLast?, p.EndsLine := by
  have hending : ending ≠ .endOfFile := by
    rintro rfl
    exact h rfl
  unfold ofBytes ofPieces
  rw [map_piece_place]
  -- Before a failure only complete lines are delivered, so the last one is complete.
  have hcomplete := (isComplete_delivered bytes ending).2 hending
  intro p hp
  rcases List.eq_nil_or_concat (ending.delivered (lines bytes)) with hnil | ⟨ls, line, hls⟩
  · rw [hnil] at hp
    exact absurd hp (by simp)
  · rw [List.concat_eq_append] at hls
    rw [hls] at hcomplete hp
    obtain ⟨q, hq, hends⟩ := endsLine_piecesOfLine (hcomplete line (by simp))
    rw [List.flatMap_append, List.flatMap_singleton, List.getLast?_append, hq] at hp
    obtain rfl : q = p := Option.some.inj hp
    exact hends

end Source

/-! ## Pieces as they are written -/

/-- The characters of a line break. -/
def LineBreak.written : LineBreak → List Char
  | .lineFeed => ['\n']
  | .carriageReturn => ['\r']
  | .both => ['\r', '\n']

namespace Piece

/-- The characters of a piece as they stand in the source. -/
def written : Piece → List Char
  | .char c => [c]
  | .lineBreak style => style.written
  | .undecodable => []

/-- The raw character of a piece is the first one that it was written with. -/
theorem raw?_eq_head? (piece : Piece) : piece.raw? = piece.written.head? := by
  cases piece with
  | lineBreak style => cases style <;> rfl
  | char | undecodable => rfl

/-- What stands behind a carriage return is not written with a line feed in front. -/
theorem head?_flatMap_written {pieces : List Piece} (hlf : ∀ q ∈ pieces, q ≠ .char '\n')
    (h : ∀ q ∈ pieces.head?, Follows (.lineBreak .carriageReturn) q) :
    (pieces.flatMap written).head? ≠ some '\n' := by
  cases pieces with
  | nil => simp
  | cons q pieces =>
    obtain ⟨hbreak, hdecoded⟩ := h q rfl
    -- What may follow a carriage return is no line feed and can be decoded.
    match q with
    | .char c =>
      intro hc
      exact hlf _ List.mem_cons_self (congrArg _ (Option.some.inj hc))
    | .lineBreak .lineFeed => exact absurd rfl (hbreak rfl)
    | .lineBreak .carriageReturn | .lineBreak .both =>
      intro hc
      exact absurd (Option.some.inj hc) (by decide)
    | .undecodable => exact absurd rfl (hdecoded rfl)

/-- Pieces that stand behind one another are read as the text that they are written as, with line
breaks as line feeds. -/
theorem normalize_written {pieces : List Piece} (h : pieces.IsChain Follows)
    (hlf : ∀ q ∈ pieces, q ≠ .char '\n') (hcr : ∀ q ∈ pieces, q ≠ .char '\r') :
    Text.normalize (pieces.flatMap written) = pieces.filterMap char? := by
  induction pieces with
  | nil => rfl
  | cons p pieces ih =>
    -- No line break and no carriage return stands in front of what it could be read together with.
    rw [List.isChain_cons] at h
    rw [List.forall_mem_cons] at hlf hcr
    rw [List.flatMap_cons, List.filterMap_cons, ← ih h.2 hlf.2 hcr.2]
    -- A piece is normalised by itself, unless it is a carriage return with a line feed behind it.
    match p with
    | .char c =>
      have hc : '\r' ∉ [c] := by
        rw [List.mem_singleton]
        rintro rfl
        exact hcr.1 rfl
      exact Text.normalize_append_of_not_mem hc _
    | .lineBreak .lineFeed => exact Text.normalize_append_of_not_mem (by decide) _
    | .lineBreak .carriageReturn =>
      exact Text.normalize_append (head?_flatMap_written hlf.2 h.1)
    | .lineBreak .both => rfl
    | .undecodable => rfl

end Piece

end Brisk
