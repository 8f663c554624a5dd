import Brisk.Proofs.Source.Lines
import Brisk.Proofs.Token.Seam

/-!
# Sources one after another

Behind a line feed a text is cut into the pieces that it has on its own, since a carriage return and
a line feed make one break only if nothing stands between them. So where a source that ends with a
line feed is followed by another, the pieces of both are those of the two sources with a seam
between them (`Source.piecesOfChars_append`, `Source.seam_place`), and its tokens are those of the
first source and then those of the second (`Lexer.yields_ofString_append`).
-/

namespace Brisk

/-- Bytes that end with a line feed are a text that does. -/
theorem Text.getLast?_eq_lineFeed {bytes : List UInt8} {s : String} (h : ofBytes? bytes = some s)
    (hlast : bytes.getLast? = some 10) : s.toList.getLast? = some '\n' := by
  rw [ofBytes?_eq_some_iff] at h
  rcases List.eq_nil_or_concat s.toList with hnil | ⟨cs, c, hcs⟩
  · rw [h, hnil] at hlast
    exact absurd hlast (by simp [encode])
  · rw [List.concat_eq_append] at hcs
    -- The last byte is that of the last character.
    rw [h, hcs, encode_append] at hlast
    rw [hcs, List.getLast?_concat]
    by_contra hc
    -- No other character has a line feed among its bytes.
    have hmem : 10 ∉ String.utf8EncodeChar c := not_mem_utf8EncodeChar fun heq => hc (by rw [heq])
    have hsingle : encode [c] = String.utf8EncodeChar c := by simp [encode]
    rw [hsingle, List.getLast?_append] at hlast
    cases hbyte : (String.utf8EncodeChar c).getLast? with
    | none => exact String.utf8EncodeChar_ne_nil (List.getLast?_eq_none_iff.mp hbyte)
    | some b =>
      rw [hbyte] at hlast
      obtain rfl : b = 10 := Option.some.inj hlast
      exact hmem (List.mem_of_getLast? hbyte)

namespace Source

/-- Behind a line feed a line starts. -/
theorem charLines_append {cs : List Char} (h : cs.getLast? = some '\n') (cs' : List Char) :
    charLines (cs ++ cs') = charLines cs ++ charLines cs' := by
  induction cs with
  | nil => exact absurd h (by simp)
  | cons c cs ih =>
    rw [List.cons_append, charLines, charLines]
    cases cs with
    -- The line feed ends the only line.
    | nil =>
      obtain rfl : c = '\n' := by simpa using h
      rfl
    -- The line feed is in a later line, or ends the first one.
    | cons d cs =>
      rw [List.getLast?_cons_cons] at h
      obtain ⟨line, more, hlines⟩ := charLines_cons_head d cs
      rw [ih h, hlines]
      split <;> rfl

/-- Behind a line feed a text is cut into pieces as if it stood alone. -/
theorem piecesOfChars_append {cs : List Char} (h : cs.getLast? = some '\n') (cs' : List Char) :
    piecesOfChars (cs ++ cs') = piecesOfChars cs ++ piecesOfChars cs' := by
  rw [← flatMap_piecesOfChars_charLines, charLines_append h, List.flatMap_append,
    flatMap_piecesOfChars_charLines, flatMap_piecesOfChars_charLines]

/-- The last piece of a text that ends with a line feed is a line break that does. -/
theorem getLast?_piecesOfChars {cs : List Char} (h : cs.getLast? = some '\n') :
    ∃ style, style ≠ .carriageReturn ∧
      (piecesOfChars cs).getLast? = some (.lineBreak style) := by
  fun_induction piecesOfChars cs with
  | case1 => exact absurd h (by simp)
  | case2 cs ih =>
    -- A line feed behind a carriage return belongs to the same break.
    cases cs with
    | nil => exact ⟨.both, by decide, rfl⟩
    | cons d cs =>
      obtain ⟨style, hstyle, hlast⟩ := ih (by simpa using h)
      refine ⟨style, hstyle, ?_⟩
      rw [List.getLast?_cons, hlast]
      rfl
  | case3 c cs _ ih =>
    -- The line feed itself is the last piece.
    cases cs with
    | nil =>
      obtain rfl : c = '\n' := by simpa using h
      exact ⟨.lineFeed, by decide, rfl⟩
    | cons d cs =>
      obtain ⟨style, hstyle, hlast⟩ := ih (by simpa using h)
      refine ⟨style, hstyle, ?_⟩
      rw [List.getLast?_cons, hlast]
      rfl

/-- Pieces and further ones are placed one behind the other. -/
theorem place_append (p : Position) (pieces pieces' : List Piece) :
    place p (pieces ++ pieces') = ((place p pieces).1 ++ (place (place p pieces).2 pieces').1,
      (place (place p pieces).2 pieces').2) := by
  induction pieces generalizing p with
  | nil => rfl
  | cons piece pieces ih =>
    rw [List.cons_append, place, ih]
    rfl

/-- A text is laid out from the start, and does not fail behind its end. -/
theorem ofString_eq (s : String) : ofString s =
    ⟨(place .start (piecesOfChars s.toList)).1,
      ⟨(place .start (piecesOfChars s.toList)).2, none⟩⟩ := rfl

/-- Pieces that end with a line break stand in front of a seam, wherever they start. -/
theorem seam_place {pieces : List Piece} {more : List Placed}
    (h : more = [] ∨ ∃ style, pieces.getLast? = some (.lineBreak style)) (p q : Position) :
    Seam more (place p pieces).1 ((place q pieces).1 ++ more) := by
  induction pieces generalizing p q with
  | nil =>
    -- Without pieces there is no seam, and so nothing behind it.
    rcases h with rfl | ⟨style, hlast⟩
    · exact .stop rfl
    · exact absurd hlast (by simp)
  | cons piece pieces ih =>
    cases pieces with
    | nil =>
      -- The last piece is followed by nothing, or breaks a line.
      rcases h with rfl | ⟨style, hlast⟩
      · exact .cons rfl (.stop rfl)
      · obtain rfl : piece = .lineBreak style := by simpa using hlast
        exact .lineBreak rfl rfl
    | cons piece' pieces =>
      rw [List.getLast?_cons_cons] at h
      exact .cons rfl (ih h (p.after piece) (q.after piece))

end Source

/-- The tokens of a text that ends with a line feed and of one behind it are those of the first and
then those of the second. -/
theorem Lexer.yields_ofString_append {limits : Limits} {s s' : String} {ls ls' : List Lexeme}
    {ts ts' : List Token} (hbreak : s.toList.getLast? = some '\n')
    (h : Yields ⟨limits, .ofString s, false⟩ ls) (hts : ls.map (·.token) = ts ++ [.endOfFile])
    (h' : Yields ⟨limits, .ofString s', false⟩ ls')
    (hts' : ls'.map (·.token) = ts' ++ [.endOfFile]) :
    ∃ ls₁, Yields ⟨limits, .ofString (s ++ s'), false⟩ ls₁ ∧
      ls₁.map (·.token) = ts ++ ts' ++ [.endOfFile] := by
  obtain ⟨style, -, hlast⟩ := Source.getLast?_piecesOfChars hbreak
  rw [Source.ofString_eq] at h h' ⊢
  rw [String.toList_append, Source.piecesOfChars_append hbreak, Source.place_append]
  generalize Source.piecesOfChars s.toList = pieces at h hlast
  generalize Source.piecesOfChars s'.toList = pieces' at h'
  generalize hstop : (Source.place .start pieces).2 = stop at h
  -- The second text has the tokens that it has on its own, although it does not stand at the start.
  have hend : Yields ⟨limits, ⟨[], ⟨(Source.place stop pieces').2, none⟩⟩, false⟩
      [⟨.endOfFile, (Source.place stop pieces').2⟩] := yields_of_nil rfl rfl
  obtain ⟨ls₂, hyields, htokens⟩ := yields_seam rfl
    (Source.seam_place (.inl rfl) .start stop) h' hts' hend
  rw [List.append_nil] at hyields
  obtain ⟨ls₁, hyields₁, htokens₁⟩ := yields_seam rfl
    (Source.seam_place (.inr ⟨style, hlast⟩) .start .start) h hts hyields
  refine ⟨ls₁, hyields₁, ?_⟩
  rw [htokens₁, htokens, List.append_assoc]
  rfl

end Brisk
