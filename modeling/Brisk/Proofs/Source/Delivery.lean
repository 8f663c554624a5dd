import Brisk.Proofs.Source.Reader

/-!
# What a source delivers

However a source is accessed, the characters that are handed out are those of its lines that can be
decoded, in their order and each once, with line breaks as line feeds; a line that cannot be decoded
delivers one error (`Source.delivers_normalized`). Reading line by line delivers the same.

`Source.content` is what there is to deliver, computed from the bytes line by line, and
`Source.text` is the text of the same lines as it stands in the source. Shown characters are taken
from the text: what has been handed out and what is left are its two parts.
-/

namespace Brisk

namespace Source

/-! ## Content -/

/-- What a line delivers: its characters, with line breaks as line feeds, or nothing in the place of
a line that cannot be decoded. -/
def contentOfLine (line : List UInt8) : List (Option Char) :=
  match Text.ofBytes? line with
  | some s => (Text.normalize s.toList).map some
  | none => [none]

/-- What bytes deliver. -/
def content (bytes : List UInt8) (ending : Ending) : List (Option Char) :=
  (ending.delivered (lines bytes)).flatMap contentOfLine

/-- The text of the delivered lines that can be decoded, as it stands in the source. -/
def text (bytes : List UInt8) (ending : Ending) : List Char :=
  ((ending.delivered (lines bytes)).filterMap Text.ofBytes?).flatMap (·.toList)

/-- The answer to every access behind the last character, when that stands in front of `stop`. -/
def Ending.answer (stop : Position) : Ending → Answer
  | .endOfFile => .ok none
  | .failing reason => .error (.io reason)
  | .garbled => .error (.invalidUtf8 stop.line)

/-- Pieces that spell a text are read as its characters. -/
theorem map_char?_of_spells {rest : List Placed} {cs : List Char} (h : Spells rest cs []) :
    rest.map (·.piece.char?) = cs.map some := by
  generalize hnil : ([] : List Placed) = left at h
  induction h with
  | nil =>
    rw [← hnil]
    rfl
  | cons hc _ ih => rw [List.map_cons, List.map_cons, hc, ih hnil]

/-- The pieces of a text are the characters of the normalized text. -/
theorem map_char?_piecesOfChars (cs : List Char) :
    (piecesOfChars cs).map (·.char?) = (Text.normalize cs).map some := by
  rw [← map_char?_of_spells (spells_place cs .start), ← map_piece_place (piecesOfChars cs) .start,
    List.map_map, map_piece_place]
  rfl

/-- The pieces of a text were written as the text is. -/
theorem flatMap_written_piecesOfChars (cs : List Char) :
    (piecesOfChars cs).flatMap (·.written) = cs := by
  fun_induction piecesOfChars cs with
  | case1 => rfl
  | case2 cs ih =>
    rw [List.flatMap_cons, ih]
    rfl
  -- Any other character is a piece of its own, a line break if it is one.
  | case3 c cs _ ih =>
    rw [List.flatMap_cons, ih]
    split
    · next hc => rw [hc]; rfl
    split
    · next hc => rw [hc]; rfl
    · rfl

variable (bytes : List UInt8) (ending : Ending)

/-- At first everything is still to be delivered. -/
theorem remaining_ofBytes : (ofBytes bytes ending).remaining = content bytes ending := by
  -- Line by line, the pieces are the characters, or one without a character.
  have hline : ∀ line, (piecesOfLine line).map (·.char?) = contentOfLine line := by
    intro line
    unfold piecesOfLine contentOfLine
    cases Text.ofBytes? line with
    | none => rfl
    | some s => exact map_char?_piecesOfChars s.toList
  have hremaining : (ofBytes bytes ending).remaining =
      ((ofBytes bytes ending).ahead.map (·.piece)).map (·.char?) := by
    rw [List.map_map]
    rfl
  rw [hremaining]
  unfold ofBytes ofPieces content
  rw [map_piece_place, List.map_flatMap]
  simp only [hline]

/-- The pieces of a source are written as its text. -/
theorem flatMap_written_ofBytes :
    ((ofBytes bytes ending).ahead.map (·.piece)).flatMap (·.written) = text bytes ending := by
  unfold ofBytes ofPieces text
  rw [map_piece_place]
  induction ending.delivered (lines bytes) with
  | nil => rfl
  | cons line ls ih =>
    rw [List.flatMap_cons, List.flatMap_append, ih, List.filterMap_cons]
    -- A line that cannot be decoded is written as nothing.
    cases hdecoded : Text.ofBytes? line with
    | none =>
      rw [piecesOfLine_of_undecodable hdecoded]
      rfl
    | some s =>
      rw [piecesOfLine_of_decoded hdecoded, flatMap_written_piecesOfChars]
      rfl

variable {bytes : List UInt8} {ending : Ending}

/-- No line break is cut in two where the pieces of a source are. -/
theorem text_eq_append {passed rest : List Placed}
    (h : (ofBytes bytes ending).ahead = passed ++ rest) :
    text bytes ending = (passed.map (·.piece)).flatMap (·.written) ++
        (rest.map (·.piece)).flatMap (·.written) ∧
      Text.normalize ((passed.map (·.piece)).flatMap (·.written)) =
        passed.filterMap (·.piece.char?) ∧
      Text.normalize ((rest.map (·.piece)).flatMap (·.written)) =
        rest.filterMap (·.piece.char?) := by
  have hfollows := follows_ofBytes bytes ending
  have hlf := ne_break_ofBytes (.inl rfl) bytes ending
  have hcr := ne_break_ofBytes (.inr rfl) bytes ending
  rw [h, List.map_append] at hfollows hlf hcr
  rw [List.forall_mem_append] at hlf hcr
  rw [Piece.normalize_written hfollows.left_of_append hlf.1 hcr.1,
    Piece.normalize_written hfollows.right_of_append hlf.2 hcr.2, ← flatMap_written_ofBytes, h,
    List.map_append, List.flatMap_append, List.filterMap_map, List.filterMap_map]
  exact ⟨rfl, rfl, rfl⟩

end Source

/-! ## Accesses to what is left -/

namespace Source

variable {src : Source} {more : List (Option Char)}

/-- What is left to be delivered is what the pieces ahead are read as. -/
theorem ahead_of_remaining {c : Option Char} (h : src.remaining = c :: more) :
    ∃ p rest, src.ahead = p :: rest ∧ p.piece.char? = c ∧
      { src with ahead := rest }.remaining = more := by
  unfold remaining at h
  obtain ⟨p, rest, hahead, hp, hrest⟩ := List.map_eq_cons_iff.mp h
  exact ⟨p, rest, hahead, hp, hrest⟩

/-- Behind the last piece every access gets the answer of the ending. -/
theorem access_of_remaining_nil {ending : Ending} (h : src.remaining = [])
    (hfailure : src.edge.failure = ending.failure src.edge.position) (a : Access) :
    src.access a = (ending.answer src.position, src) := by
  have hnil : src.ahead = [] := List.map_eq_nil_iff.mp h
  have hposition : src.position = src.edge.position := by
    unfold Source.position
    rw [hnil]
  rw [access_of_nil hnil, hposition]
  unfold Edge.close
  rw [hfailure]
  cases ending <;> rfl

/-- A line that cannot be decoded is reported once, and passed. -/
theorem access_of_remaining_none {start : Position}
    (hlaid : Laid src.edge.position start src.ahead) (h : src.remaining = none :: more)
    (a : Access) :
    ∃ src', src.access a = (.error (.invalidUtf8 src.position.line), src') ∧
      src'.remaining = more ∧ src'.position = src.position := by
  -- The first piece is the one that cannot be decoded.
  obtain ⟨p, rest, hahead, hp, hrest⟩ := ahead_of_remaining h
  rw [Piece.char?_eq_none_iff] at hp
  have hposition : src.position = p.position := by
    unfold Source.position
    rw [hahead]
  refine ⟨{ src with ahead := rest }, ?_, hrest, ?_⟩
  · rw [hposition]
    exact access_of_undecodable hahead hp a
  · rw [hahead] at hlaid
    obtain ⟨hstart, -, hlaid⟩ := hlaid
    rw [hp] at hlaid
    rw [hposition, hstart]
    exact position_of_laid hlaid

/-- A character that is left is handed out. -/
theorem bump_of_remaining {c : Char} (h : src.remaining = some c :: more) :
    ∃ src', src.access .bump = (.ok (some c), src') ∧ src'.remaining = more := by
  obtain ⟨p, rest, hahead, hp, hrest⟩ := ahead_of_remaining h
  exact ⟨{ src with ahead := rest }, bump_of_char hahead hp, hrest⟩

/-- A character that is left is shown as it is written, and stays. -/
theorem peek_of_remaining {c : Char} (h : src.remaining = some c :: more) :
    ∃ raw back, (src.ahead.map (·.piece)).flatMap (·.written) = raw :: back ∧
      src.access .peek = (.ok (some raw), src) := by
  obtain ⟨p, rest, hahead, hp, -⟩ := ahead_of_remaining h
  obtain ⟨raw, hraw⟩ := Piece.exists_raw? hp
  have hwritten := hraw
  rw [Piece.raw?_eq_head?] at hwritten
  obtain ⟨back, hback⟩ := List.head?_eq_some_iff.mp hwritten
  refine ⟨raw, back ++ (rest.map (·.piece)).flatMap (·.written), ?_, peek_of_char hahead hraw⟩
  rw [hahead, List.map_cons, List.flatMap_cons, hback]
  rfl

/-! ## Sequences of accesses -/

/-- What accesses to a source of bytes have passed, what they have delivered of it, and where what
is left of it starts. -/
theorem history_ofBytes (bytes : List UInt8) (ending : Ending) (accesses : List Access) :
    let answers := (history access (ofBytes bytes ending) accesses).1
    let left := (history access (ofBytes bytes ending) accesses).2
    ∃ inside beyond passed, answers = inside ++ beyond ∧
      (ofBytes bytes ending).ahead = passed ++ left.ahead ∧
      left.edge = (ofBytes bytes ending).edge ∧
      delivered inside = passed.map (·.piece.char?) ∧
      handedOut answers = passed.filterMap (·.piece.char?) ∧
      (∀ a ∈ beyond, a.2 = left.edge.close none ∧ left.ahead = []) ∧
      Laid left.edge.position (.ofText (handedOut answers)) left.ahead := by
  intro answers left
  obtain ⟨inside, beyond, passed, hanswers, hpassed, hedge, hdelivered, hrest, hclose⟩ :=
    history_consumes accesses (ofBytes bytes ending)
  -- What is handed out is what has been passed, since nothing is at the edge.
  have hhanded : handedOut answers = passed.filterMap (·.piece.char?) := by
    calc handedOut answers
        = handedOut inside ++ handedOut beyond := by rw [← handedOut_append, ← hanswers]
      _ = handedOut inside := by rw [handedOut_of_close hclose, List.append_nil]
      _ = (passed.map (·.piece.char?)).filterMap id := by rw [← hdelivered, filterMap_delivered]
      _ = passed.filterMap (·.piece.char?) := by
        rw [List.filterMap_map]
        rfl
  refine ⟨inside, beyond, passed, hanswers, hpassed, hedge, hdelivered, hhanded,
    fun a ha => ⟨?_, hrest (List.ne_nil_of_mem ha)⟩, ?_⟩
  · rw [hclose a ha, ← hedge]
  · -- The place is behind all that has been handed out.
    have hlaid := laid_ofBytes bytes ending
    rw [hpassed, ← hedge] at hlaid
    rw [hhanded, Position.ofText_eq_behind]
    exact hlaid.of_append

/-- Whatever a source is asked for in whatever order, it delivers its content.

- The answers have delivered the front of the content, each character and each error once, and the
  rest is left. Once something is asked for behind the last character, nothing is left.
- The characters that have been handed out are those of the front of the content. Asking for as
  many characters as the content is long leaves nothing.
- The next character stands where the characters that have been handed out lead.
- Behind the last character every access gets the same answer and changes nothing.
- A line that cannot be decoded is reported once, by the first access that gets to it, with the line
  that the next character stands on; and the position stays.
- A character is handed out with line breaks as line feeds, and shown as it stands in the text,
  which changes nothing: the text is cut in two where what has been handed out ends.
- Reading line by line gives the same answers, and stands at the same position. -/
theorem delivers_normalized (bytes : List UInt8) (ending : Ending) (accesses : List Access) :
    let answers := (history access (ofBytes bytes ending) accesses).1
    let left := (history access (ofBytes bytes ending) accesses).2
    (∃ inside beyond, answers = inside ++ beyond ∧
      content bytes ending = delivered inside ++ left.remaining ∧
      ∀ a ∈ beyond, a.2 = ending.answer left.position ∧ left.remaining = []) ∧
    ((content bytes ending).filterMap id = handedOut answers ++ left.remaining.filterMap id ∧
      ((content bytes ending).length ≤ accesses.count .bump → left.remaining = [])) ∧
    left.position = .ofText (handedOut answers) ∧
    (left.remaining = [] → ∀ a, left.access a = (ending.answer left.position, left)) ∧
    (∀ more, left.remaining = none :: more → ∀ a, ∃ left',
      left.access a = (.error (.invalidUtf8 left.position.line), left') ∧
      left'.remaining = more ∧ left'.position = left.position) ∧
    (∀ c more, left.remaining = some c :: more →
      (∃ left', left.access .bump = (.ok (some c), left') ∧ left'.remaining = more) ∧
      ∃ raw front back, left.access .peek = (.ok (some raw), left) ∧
        text bytes ending = front ++ raw :: back ∧
        Text.normalize front = handedOut answers ∧
        Text.normalize (raw :: back) = left.remaining.filterMap id) ∧
    (history Reader.access (.ofBytes bytes ending) accesses).1 = answers ∧
    (history Reader.access (.ofBytes bytes ending) accesses).2.position = left.position := by
  intro answers left
  obtain ⟨inside, beyond, passed, hanswers, hpassed, hedge, hdelivered, hhanded, hbeyond, hlaid⟩ :=
    history_ofBytes bytes ending accesses
  have hposition : left.position = .ofText (handedOut answers) := position_of_laid hlaid
  -- The failure is that of the ending, where the text has come to.
  have hfailure : left.edge.failure = ending.failure left.edge.position := by
    rw [hedge]
    rfl
  -- The content is what has been delivered and what is left.
  have hcontent : content bytes ending = delivered inside ++ left.remaining := by
    rw [← remaining_ofBytes, hdelivered]
    unfold remaining
    rw [hpassed, List.map_append]
  have hreader := Reader.history_source (Reader.valid_ofBytes bytes ending) accesses
  -- The reader gives the same answers, and is at the same place.
  rw [Reader.source_ofBytes] at hreader
  refine ⟨⟨inside, beyond, hanswers, hcontent, fun a ha => ?_⟩, ⟨?_, fun hcount => ?_⟩, hposition,
    fun hnil => access_of_remaining_nil hnil hfailure,
    fun more hmore => access_of_remaining_none hlaid hmore,
    fun c more hmore => ⟨bump_of_remaining hmore, ?_⟩, ?_, ?_⟩
  · obtain ⟨hanswer, hahead⟩ := hbeyond a ha
    -- Beyond the content nothing is left.
    have hnil : left.remaining = [] := List.map_eq_nil_iff.mpr hahead
    have hclose := (access_of_nil hahead .peek).symm.trans
      (access_of_remaining_nil hnil hfailure .peek)
    exact ⟨hanswer.trans (congrArg Prod.fst hclose), hnil⟩
  · rw [hcontent, hhanded, List.filterMap_append, hdelivered, List.filterMap_map]
    rfl
  · have hleft : left.ahead.length ≤ _ := length_history_le accesses (ofBytes bytes ending)
    -- Each step consumes one piece, and there are as many pieces as there is content.
    have hlength : (ofBytes bytes ending).ahead.length = (content bytes ending).length := by
      rw [← remaining_ofBytes]
      exact (List.length_map _).symm
    apply List.map_eq_nil_iff.mpr
    exact List.length_eq_zero_iff.mp (by omega)
  · obtain ⟨raw, back, hback, hpeek⟩ := peek_of_remaining hmore
    -- The next character stands in the text behind what has been passed.
    refine ⟨raw, (passed.map (·.piece)).flatMap (·.written), back, hpeek, ?_⟩
    obtain ⟨htext, hfront, hrest⟩ := text_eq_append hpassed
    rw [hback] at htext hrest
    rw [hhanded]
    refine ⟨htext, hfront, hrest.trans ?_⟩
    unfold remaining
    rw [List.filterMap_map]
    rfl
  · exact congrArg Prod.fst hreader.symm
  · rw [← Reader.position_source]
    exact congrArg (·.2.position) hreader.symm

/-- A break of two characters behind a letter, and a line that cannot be decoded behind it: the
break is shown as it is written and handed out as a line feed, the line is reported with its number,
and then nothing is left. -/
theorem delivers_normalized_break :
    let src : Source := .ofBytes (Text.bytes "a\r\n" ++ [255]) .endOfFile
    let left (n : Nat) : Source := (history access src (List.replicate n .bump)).2
    (∃ src', (left 1).access .bump = (.ok (some '\n'), src') ∧ src'.remaining = [none]) ∧
      (∃ raw front back, (left 1).access .peek = (.ok (some raw), left 1) ∧
        text (Text.bytes "a\r\n" ++ [255]) .endOfFile = front ++ raw :: back ∧
        Text.normalize front = ['a'] ∧ Text.normalize (raw :: back) = ['\n']) ∧
      (∀ a, ∃ src', (left 2).access a = (.error (.invalidUtf8 2), src') ∧ src'.remaining = []) ∧
      ∀ a, (left 3).access a = (.ok none, left 3) := by
  intro src left
  have hbreak : (left 1).remaining = [some '\n', none] := by decide +kernel
  have hline : (left 2).remaining = [none] := by decide +kernel
  have hnone : (left 3).remaining = [] := by decide +kernel
  have hposition : (left 2).position.line = 2 := by decide +kernel
  have hhanded : handedOut (history access src (List.replicate 1 .bump)).1 = ['a'] := by
    decide +kernel
  obtain ⟨-, -, -, -, -, hchar, -, -⟩ :=
    delivers_normalized (Text.bytes "a\r\n" ++ [255]) .endOfFile (List.replicate 1 .bump)
  obtain ⟨-, -, -, -, hreport, -, -, -⟩ :=
    delivers_normalized (Text.bytes "a\r\n" ++ [255]) .endOfFile (List.replicate 2 .bump)
  obtain ⟨-, -, -, hclosed, -, -, -, -⟩ :=
    delivers_normalized (Text.bytes "a\r\n" ++ [255]) .endOfFile (List.replicate 3 .bump)
  obtain ⟨htaken, raw, front, back, hpeek, htext, hfront, hback⟩ := hchar '\n' [none] hbreak
  refine ⟨htaken, ⟨raw, front, back, hpeek, htext, hfront.trans hhanded, ?_⟩, fun a => ?_, ?_⟩
  · rw [hback]
    show (left 1).remaining.filterMap id = _
    rw [hbreak]
    rfl
  · obtain ⟨src', haccess, hremaining, -⟩ := hreport [] hline a
    refine ⟨src', ?_, hremaining⟩
    rw [← hposition]
    exact haccess
  · exact hclosed hnone

end Source

end Brisk
