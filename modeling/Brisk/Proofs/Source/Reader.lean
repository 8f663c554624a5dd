import Brisk.Proofs.Source.Access
import Brisk.Proofs.Source.Breaks

/-!
# Reading line by line

A source is laid out as a whole, while its bytes are read line by line, as the characters are asked
for: a `Reader` keeps what is left of the line that it is in, and reads the next line when it has to
show a character and none is left. A carriage return is handed out before it is known what stands
behind it, so the reader looks once more, which may make it read again.

A reader stands for the source that is left of it (`Reader.source`), and every access to the reader
is the same access to that source (`Reader.access_source`). The invariant that this takes is that
nothing is left unread behind a line that does not end with a line feed (`Reader.Valid`): a carriage
return at the end of a line is then the last character of all, and the failure of a source is never
met in the middle of a line break.
-/

namespace Brisk

/-! ## Readers -/

/-- The state of a reader. -/
structure Reader where
  /-- The bytes that have not been read. -/
  unread : List UInt8
  /-- How the bytes stop. -/
  ending : Source.Ending
  /-- What has been read and not been handed out. -/
  buffer : List Char
  /-- Whether the end of the bytes has been met. -/
  exhausted : Bool
  position : Position

namespace Reader

/-- A reader that has read nothing. -/
def ofBytes (bytes : List UInt8) (ending : Source.Ending) : Reader :=
  ⟨bytes, ending, [], false, .start⟩

/-- Decodes a line that has been read. -/
def decode (reader : Reader) (line : List UInt8) : Except ReadError String :=
  match Text.ofBytes? line with
  | some s => .ok s
  | none => .error (.invalidUtf8 reader.position.line)

/-- Reads a line, which is empty behind the last one. The bytes of a line that cannot be decoded or
that a failure cuts short are lost. -/
def readLine (reader : Reader) : Except ReadError String × Reader :=
  let (line, rest) := Source.cutLine reader.unread
  let result :=
    match reader.ending.failure reader.position with
    | none => reader.decode line
    | some e => if Source.isComplete line then reader.decode line else .error e
  (result, { reader with unread := rest })

/-- Reads a line if no character is left and the end has not been met. -/
def fill (reader : Reader) : Except ReadError Unit × Reader :=
  if reader.buffer = [] ∧ reader.exhausted = false then
    let (result, reader) := reader.readLine
    match result with
    | .ok s =>
      if s = "" then (.ok (), { reader with exhausted := true })
      else (.ok (), { reader with buffer := s.toList })
    | .error e => (.error e, reader)
  else (.ok (), reader)

/-- Shows the next character as it stands in the source. -/
def peek (reader : Reader) : Answer × Reader :=
  let (result, reader) := reader.fill
  match result with
  | .ok () => (.ok reader.buffer.head?, reader)
  | .error e => (.error e, reader)

/-- Takes the next character out of what has been read. -/
def drop (reader : Reader) : Reader := { reader with buffer := reader.buffer.tail }

/-- Moves on behind a character that has been taken out: behind a carriage return, a line feed is
taken out too. -/
def pass (reader : Reader) (c : Char) : Answer × Reader :=
  if c = '\r' then
    let (answer, reader) := reader.peek
    match answer with
    | .ok d =>
      let reader := if d = some '\n' then reader.drop else reader
      (.ok (some '\n'), { reader with position := reader.position.down })
    | .error e => (.error e, reader)
  else if c = '\n' then (.ok (some '\n'), { reader with position := reader.position.down })
  else (.ok (some c), { reader with position := reader.position.right })

/-- Hands out the next character, line breaks as line feeds. -/
def bump (reader : Reader) : Answer × Reader :=
  let (answer, reader) := reader.peek
  match answer with
  | .ok (some c) => reader.drop.pass c
  | .ok none => (.ok none, reader)
  | .error e => (.error e, reader)

/-- The answer to an access, and the reader behind it. -/
def access (reader : Reader) : Access → Answer × Reader
  | .peek => reader.peek
  | .bump => reader.bump

/-! ## The source that is left -/

/-- The pieces that are left of a source. -/
def pieces (reader : Reader) : List Piece :=
  Source.piecesOfChars reader.buffer ++
    (reader.ending.delivered (Source.lines reader.unread)).flatMap Source.piecesOfLine

/-- The source that is left of a reader. -/
def source (reader : Reader) : Source :=
  let (placed, stop) := Source.place reader.position reader.pieces
  ⟨placed, ⟨stop, reader.ending.failure stop⟩⟩

/-- Whether there is nothing to read behind the characters that are left. -/
def AtEnd (reader : Reader) : Prop := reader.unread = [] ∧ reader.ending = .endOfFile

/-- What holds in all states of a reader: a line without a line feed at its end is the last one, and
the end is met behind it. -/
structure Valid (reader : Reader) : Prop where
  complete : reader.buffer = [] ∨ reader.buffer.getLast? = some '\n' ∨ reader.AtEnd
  exhausted : reader.exhausted = true → reader.AtEnd

variable {reader : Reader}

/-- A reader that has not read anything is in order. -/
theorem valid_ofBytes (bytes : List UInt8) (ending : Source.Ending) :
    (ofBytes bytes ending).Valid :=
  ⟨.inl rfl, fun h => absurd h Bool.false_ne_true⟩

/-- A reader that has read nothing stands for the whole source. -/
theorem source_ofBytes (bytes : List UInt8) (ending : Source.Ending) :
    (ofBytes bytes ending).source = .ofBytes bytes ending := rfl

/-- The source that is left goes on where the reader stands. -/
theorem position_source (reader : Reader) : reader.source.position = reader.position := by
  unfold source
  cases reader.pieces with
  | nil => rfl
  | cons piece pieces => rfl

/-- Readers with the same pieces left stand for the same source. -/
theorem source_congr {reader' : Reader} (hending : reader'.ending = reader.ending)
    (hposition : reader'.position = reader.position) (hpieces : reader'.pieces = reader.pieces) :
    reader'.source = reader.source := by
  unfold source
  rw [hending, hposition, hpieces]

/-- A reader that has one piece less left, and stands behind it, stands for the source without its
first piece. -/
theorem source_of_cons {reader' : Reader} {piece : Piece}
    (hpieces : reader.pieces = piece :: reader'.pieces) (hending : reader'.ending = reader.ending)
    (hposition : reader'.position = reader.position.after piece) :
    reader.source.ahead = ⟨piece, reader.position⟩ :: reader'.source.ahead ∧
      reader'.source = { reader.source with ahead := reader'.source.ahead } := by
  unfold source
  rw [hpieces, Source.place, hending, hposition]
  exact ⟨rfl, rfl⟩

/-! ## Filling -/

/-- What filling a reader that stands for a source comes to: a character or the end of the source
stands ahead, the source has failed, or a line that cannot be decoded has been dropped from it. -/
inductive Fills (src : Source) : Except ReadError Unit × Reader → Prop where
  | ready {reader : Reader} (hsource : reader.source = src)
      (h : reader.buffer ≠ [] ∨ reader.AtEnd) : Fills src (.ok (), reader)
  | failed {reader : Reader} {e : ReadError} (hsource : reader.source = src)
      (hahead : src.ahead = []) (he : src.edge.failure = some e) : Fills src (.error e, reader)
  | dropped {reader : Reader} {p : Placed} {rest : List Placed} (hahead : src.ahead = p :: rest)
      (hp : p.piece = .undecodable) (hsource : reader.source = { src with ahead := rest }) :
      Fills src (.error (.invalidUtf8 p.position.line), reader)

/-- A reader that has characters left, or has nothing to read, does not read. -/
theorem fill_of_ready (h : reader.buffer ≠ [] ∨ reader.AtEnd) :
    ∃ exhausted, reader.fill = (.ok (), { reader with exhausted := exhausted }) ∧
      (exhausted = true → reader.exhausted = true ∨ reader.AtEnd) := by
  unfold fill
  split
  · next hempty =>
    -- Nothing is left to be read, so an empty line is read, which marks the end.
    obtain ⟨hunread, hending⟩ := h.resolve_left (not_not.mpr hempty.1)
    refine ⟨true, ?_, fun _ => .inr ⟨hunread, hending⟩⟩
    have hline : reader.readLine = (.ok "", reader) := by
      obtain ⟨unread, ending, buffer, exhausted, position⟩ := reader
      simp only at hunread hending
      subst hunread hending
      rfl
    rw [hline]
    rfl
  · -- The buffer is not empty, so nothing is read.
    exact ⟨reader.exhausted, rfl, .inl⟩

section Reading

variable {line rest : List UInt8}

/-- A reader without characters has the pieces of the lines that will be delivered. -/
theorem pieces_of_nil (h : reader.buffer = []) : reader.pieces =
    (reader.ending.delivered (Source.lines reader.unread)).flatMap Source.piecesOfLine := by
  unfold pieces
  rw [h]
  rfl

/-- A line that is whole, or at the end of the source, is read and delivered. -/
theorem readLine_of_delivered (hunread : reader.unread ≠ [])
    (hcut : Source.cutLine reader.unread = (line, rest))
    (h : Source.isComplete line = true ∨ reader.ending = .endOfFile) :
    reader.readLine = (reader.decode line, { reader with unread := rest }) ∧
      reader.ending.delivered (Source.lines reader.unread) =
        line :: reader.ending.delivered (Source.lines rest) := by
  -- The first line is the one that is cut off.
  have hlines := Source.lines_eq_cutLine hunread
  rw [hcut] at hlines
  rw [hlines]
  unfold readLine
  rw [hcut]
  -- Only before a failure lines have to be complete to be delivered.
  cases hending : reader.ending with
  | endOfFile => exact ⟨rfl, rfl⟩
  | failing reason =>
    have hcomplete := h.resolve_right (by simp [hending])
    simp only [Source.Ending.failure, hcomplete, if_true]
    exact ⟨trivial, List.filter_cons_of_pos hcomplete⟩
  | garbled =>
    have hcomplete := h.resolve_right (by simp [hending])
    simp only [Source.Ending.failure, hcomplete, if_true]
    exact ⟨trivial, List.filter_cons_of_pos hcomplete⟩

/-- Where a source fails, nothing is delivered any more and what has not been read is lost. -/
theorem readLine_of_failure (hcut : Source.cutLine reader.unread = (line, rest))
    (hcomplete : Source.isComplete line = false) (hending : reader.ending ≠ .endOfFile) :
    ∃ e, reader.ending.failure reader.position = some e ∧
      reader.readLine = (.error e, { reader with unread := [] }) ∧
      reader.ending.delivered (Source.lines reader.unread) = [] := by
  -- An incomplete line is the last one, so nothing is delivered of what is left.
  have hlost : rest = [] ∧ (Source.lines reader.unread).filter Source.isComplete = [] := by
    by_cases hunread : reader.unread = []
    · rw [hunread] at hcut ⊢
      exact ⟨(congrArg Prod.snd hcut).symm, rfl⟩
    · have hspec := Source.cutLine_spec hunread
      have hlines := Source.lines_eq_cutLine hunread
      rw [hcut] at hspec hlines
      obtain rfl : rest = [] := hspec.2.1.resolve_left (by simp [hcomplete])
      rw [hlines, List.filter_cons_of_neg (by simp [hcomplete])]
      exact ⟨rfl, rfl⟩
  unfold readLine
  -- The reader loses what it has read before the failure.
  rw [hcut, hlost.1]
  cases hcase : reader.ending with
  | endOfFile => exact absurd hcase hending
  | failing reason =>
    simp only [Source.Ending.failure, hcomplete, Bool.false_eq_true, if_false]
    exact ⟨_, rfl, rfl, hlost.2⟩
  | garbled =>
    simp only [Source.Ending.failure, hcomplete, Bool.false_eq_true, if_false]
    exact ⟨_, rfl, rfl, hlost.2⟩

/-- Filling a reader reads the next line that is delivered. -/
theorem fill_of_delivered (hbuffer : reader.buffer = []) (hexhausted : reader.exhausted = false)
    (hunread : reader.unread ≠ []) (hcut : Source.cutLine reader.unread = (line, rest))
    (h : Source.isComplete line = true ∨ reader.ending = .endOfFile) :
    Fills reader.source reader.fill ∧ reader.fill.2.Valid := by
  obtain ⟨hline, hdelivered⟩ := readLine_of_delivered hunread hcut h
  have hspec := Source.cutLine_spec hunread
  rw [hcut] at hspec
  have hpieces := pieces_of_nil hbuffer
  rw [hdelivered, List.flatMap_cons] at hpieces
  have hnever : reader.exhausted = true → reader.AtEnd :=
    fun he => absurd he (by simp [hexhausted])
  unfold fill
  -- The buffer is empty, so a line is read and decoded.
  rw [if_pos ⟨hbuffer, hexhausted⟩, hline]
  unfold decode
  cases hdecoded : Text.ofBytes? line with
  -- A line that cannot be decoded is dropped, and is one piece of the source.
  | none =>
    rw [Source.piecesOfLine_of_undecodable hdecoded] at hpieces
    have hrest : { reader with unread := rest }.buffer = [] := hbuffer
    have hleft : reader.pieces = .undecodable :: { reader with unread := rest }.pieces := by
      rw [hpieces, pieces_of_nil hrest]
      rfl
    obtain ⟨hahead, hsource⟩ := source_of_cons hleft rfl rfl
    exact ⟨.dropped hahead rfl hsource, .inl hbuffer, fun he => absurd he (by simp [hexhausted])⟩
  -- A decoded line is put into the buffer, and is cut into pieces there.
  | some s =>
    rw [Source.piecesOfLine_of_decoded hdecoded] at hpieces
    have hs : s ≠ "" := by
      rintro rfl
      exact hspec.1 (Text.ofBytes?_eq_some_iff.mp hdecoded)
    simp only [if_neg hs]
    refine ⟨.ready (source_congr rfl rfl hpieces.symm) (.inl ?_), .inr ?_, ?_⟩
    · simpa using hs
    · -- The line ends with a line feed, or it is the last one.
      have hlast : Source.isComplete line = true → s.toList.getLast? = some '\n' :=
        fun hcomplete => Text.getLast?_eq_lineFeed hdecoded (beq_iff_eq.mp hcomplete)
      rcases hspec.2.1 with hcomplete | hrest
      · exact .inl (hlast hcomplete)
      · exact h.imp hlast fun hending => ⟨hrest, hending⟩
    · exact fun he => absurd he (by simp [hexhausted])

/-- Filling a reader fails where its source does. -/
theorem fill_of_failure (hbuffer : reader.buffer = []) (hexhausted : reader.exhausted = false)
    (hcut : Source.cutLine reader.unread = (line, rest))
    (hcomplete : Source.isComplete line = false) (hending : reader.ending ≠ .endOfFile) :
    Fills reader.source reader.fill ∧ reader.fill.2.Valid := by
  obtain ⟨e, he, hline, hdelivered⟩ := readLine_of_failure hcut hcomplete hending
  -- Nothing is delivered, so the source has no pieces left.
  have hpieces : reader.pieces = [] := by
    rw [pieces_of_nil hbuffer, hdelivered]
    rfl
  have hlost : { reader with unread := [] }.buffer = [] := hbuffer
  have hleft : { reader with unread := [] }.pieces = [] := by
    rw [pieces_of_nil hlost]
    cases reader.ending <;> rfl
  have hsource : reader.source = ⟨[], ⟨reader.position, some e⟩⟩ := by
    unfold source
    rw [hpieces, ← he]
    rfl
  -- The line is not read, so the failure is reported.
  unfold fill
  rw [if_pos ⟨hbuffer, hexhausted⟩, hline]
  refine ⟨.failed (source_congr rfl rfl (hleft.trans hpieces.symm)) ?_ ?_, .inl hbuffer, ?_⟩
  · rw [hsource]
  · rw [hsource]
  · exact fun he => absurd he (by simp [hexhausted])

end Reading

/-- Filling a reader does what its source says, and leaves it in a state that it can be in. -/
theorem fill_fills (h : reader.Valid) : Fills reader.source reader.fill ∧ reader.fill.2.Valid := by
  by_cases hready : reader.buffer ≠ [] ∨ reader.AtEnd
  · obtain ⟨exhausted, hfill, hend⟩ := fill_of_ready hready
    rw [hfill]
    exact ⟨.ready rfl hready, h.complete, fun he => (hend he).elim h.exhausted id⟩
  · -- The buffer is empty and something is left to be read.
    rw [not_or, not_not] at hready
    obtain ⟨hbuffer, hend⟩ := hready
    have hexhausted : reader.exhausted = false :=
      Bool.eq_false_iff.mpr fun he => hend (h.exhausted he)
    by_cases hwhole : Source.isComplete (Source.cutLine reader.unread).1 = true ∨
        reader.ending = .endOfFile
    · refine fill_of_delivered hbuffer hexhausted (fun hunread => ?_) rfl hwhole
      rw [hunread] at hwhole
      -- Were nothing left, the reader would be at its end.
      exact hend ⟨hunread, hwhole.resolve_left (by decide)⟩
    · rw [not_or, Bool.not_eq_true] at hwhole
      exact fill_of_failure hbuffer hexhausted rfl hwhole.1 hwhole.2

/-! ## Accesses -/

/-- The first piece of what is left of a line shows its first character. -/
theorem raw?_piecesOfChars (c : Char) (cs : List Char) :
    ∃ piece pieces, Source.piecesOfChars (c :: cs) = piece :: pieces ∧ piece.raw? = some c := by
  unfold Source.piecesOfChars
  split
  · next heq => exact absurd heq (by simp)
  · next heq =>
    -- A carriage return with a line feed behind it shows the carriage return.
    obtain ⟨rfl, -⟩ := List.cons.inj heq
    exact ⟨_, _, rfl, rfl⟩
  · next heq =>
    obtain ⟨rfl, -⟩ := List.cons.inj heq
    -- Any other piece is one character, which is shown.
    refine ⟨_, _, rfl, ?_⟩
    split
    · next hc => rw [hc]; rfl
    split
    · next hc => rw [hc]; rfl
    · rfl

/-- A reader that has handed out everything stands at the end of its source. -/
theorem source_of_atEnd (hbuffer : reader.buffer = []) (h : reader.AtEnd) :
    reader.source = ⟨[], ⟨reader.position, none⟩⟩ := by
  obtain ⟨hunread, hending⟩ := h
  unfold source
  rw [pieces_of_nil hbuffer, hunread, hending]
  rfl

/-- A reader that has been filled shows what its source shows. -/
theorem peek_source_of_ready (h : reader.buffer ≠ [] ∨ reader.AtEnd) :
    reader.source.peek = (.ok reader.buffer.head?, reader.source) := by
  cases hbuffer : reader.buffer with
  -- At the end neither shows a character.
  | nil =>
    rw [source_of_atEnd hbuffer (h.resolve_left (not_not.mpr hbuffer))]
    rfl
  | cons c cs =>
    -- The source shows the first character of its first piece.
    obtain ⟨piece, pieces, hpieces, hraw⟩ := raw?_piecesOfChars c cs
    have hcons : reader.pieces = piece :: (pieces ++ (reader.ending.delivered
        (Source.lines reader.unread)).flatMap Source.piecesOfLine) := by
      unfold Reader.pieces
      rw [hbuffer, hpieces]
      rfl
    have hahead : reader.source.ahead = ⟨piece, reader.position⟩ ::
        (Source.place (reader.position.after piece) (pieces ++ (reader.ending.delivered
          (Source.lines reader.unread)).flatMap Source.piecesOfLine)).1 := by
      unfold source
      rw [hcons]
      rfl
    exact Source.peek_of_char hahead hraw

/-- A reader shows what its source shows. -/
theorem peek_source (h : reader.Valid) :
    reader.source.peek = (reader.peek.1, reader.peek.2.source) ∧ reader.peek.2.Valid := by
  obtain ⟨hfills, hvalid⟩ := fill_fills h
  unfold peek
  generalize reader.fill = filled at hfills hvalid
  cases hfills with
  -- The buffer is filled as far as it can be.
  | ready hsource hready =>
    rw [← hsource]
    exact ⟨peek_source_of_ready hready, hvalid⟩
  -- A failure is reported at the edge of the source.
  | failed hsource hahead he =>
    refine ⟨?_, hvalid⟩
    have haccess := Source.access_of_nil hahead .peek
    unfold Edge.close at haccess
    rw [he] at haccess
    rw [hsource]
    exact haccess
  -- A line that could not be decoded is reported and dropped on both sides.
  | dropped hahead hp hsource =>
    refine ⟨?_, hvalid⟩
    rw [hsource]
    exact Source.access_of_undecodable hahead hp .peek

/-- Dropping what has been read ahead leaves a reader in order. -/
theorem Valid.drop (h : reader.Valid) : reader.drop.Valid := by
  refine ⟨?_, h.exhausted⟩
  show reader.buffer.tail = [] ∨ reader.buffer.tail.getLast? = some '\n' ∨ reader.AtEnd
  rcases h.complete with hnil | hlast | hend
  · rw [hnil]
    exact .inl rfl
  · -- Without its first character a buffer still ends with a line feed, unless nothing is left of
    -- it.
    match hbuffer : reader.buffer with
    | [] | [_] => exact .inl rfl
    | c :: d :: cs =>
      rw [hbuffer, List.getLast?_cons_cons] at hlast
      exact .inr (.inl hlast)
  · exact .inr (.inr hend)

/-- Behind a carriage return there are characters left, or nothing to read. -/
theorem Valid.ready_drop (h : reader.Valid) {cs : List Char}
    (hbuffer : reader.buffer = '\r' :: cs) :
    reader.drop.buffer ≠ [] ∨ reader.drop.AtEnd := by
  rcases h.complete with hnil | hlast | hend
  · exact absurd (hbuffer.symm.trans hnil) (by simp)
  · refine .inl fun hnil => ?_
    unfold Reader.drop at hnil
    rw [hbuffer] at hnil hlast
    obtain rfl : cs = [] := hnil
    exact absurd hlast (by decide)
  · exact .inr hend

/-- A reader that is filled shows its next character and changes nothing but what it knows of the
end. -/
theorem peek_of_ready (h : reader.buffer ≠ [] ∨ reader.AtEnd) :
    ∃ exhausted, reader.peek = (.ok reader.buffer.head?, { reader with exhausted := exhausted }) ∧
      (exhausted = true → reader.exhausted = true ∨ reader.AtEnd) := by
  obtain ⟨exhausted, hfill, hend⟩ := fill_of_ready h
  refine ⟨exhausted, ?_, hend⟩
  unfold peek
  rw [hfill]

/-- Behind the first piece of what is left, which is read as `c`. -/
theorem bump_of_pieces {reader' : Reader} {piece : Piece} {c : Char} (hc : piece.char? = some c)
    (hpieces : reader.pieces = piece :: reader'.pieces) (hending : reader'.ending = reader.ending)
    (hposition : reader'.position = reader.position.after piece) :
    reader.source.bump = (.ok (some c), reader'.source) := by
  obtain ⟨hahead, hsource⟩ := source_of_cons hpieces hending hposition
  rw [hsource]
  exact Source.bump_of_char hahead hc

/-- A character is a piece of its own unless it is a carriage return in front of a line feed. -/
theorem piecesOfChars_cons {c : Char} {cs : List Char} (h : c = '\r' → cs.head? ≠ some '\n') :
    Source.piecesOfChars (c :: cs) =
      (if c = '\r' then .lineBreak .carriageReturn
        else if c = '\n' then .lineBreak .lineFeed
        else .char c) :: Source.piecesOfChars cs := by
  rw [Source.piecesOfChars]
  rintro cs' hc rfl
  exact h hc rfl

/-- A carriage return is passed together with the line feed behind it. -/
theorem pass_carriageReturn (h : reader.Valid) {cs : List Char}
    (hbuffer : reader.buffer = '\r' :: cs) :
    reader.source.bump = ((reader.drop.pass '\r').1, (reader.drop.pass '\r').2.source) ∧
      (reader.drop.pass '\r').2.Valid := by
  obtain ⟨exhausted, hpeek, hend⟩ := peek_of_ready (h.ready_drop hbuffer)
  have hexhausted : exhausted = true → reader.AtEnd := fun he => (hend he).elim h.exhausted id
  have hcomplete := h.drop.complete
  obtain ⟨unread, ending, buffer, _, position⟩ := reader
  simp only at hbuffer
  subst hbuffer
  simp only [drop, List.tail_cons] at hpeek hcomplete
  unfold pass
  simp only [drop, List.tail_cons, if_true, hpeek]
  by_cases hbreak : cs.head? = some '\n'
  · -- A line feed behind the carriage return belongs to the same break, and is dropped with it.
    obtain ⟨cs', rfl⟩ := List.head?_eq_some_iff.mp hbreak
    have hvalid : Valid ⟨unread, ending, '\n' :: cs', exhausted, position⟩ :=
      ⟨hcomplete, hexhausted⟩
    simp only [if_pos hbreak]
    have hboth : (Piece.lineBreak .both).char? = some '\n' := rfl
    exact ⟨bump_of_pieces hboth rfl rfl rfl, hvalid.drop.complete, hexhausted⟩
  · simp only [if_neg hbreak]
    -- The carriage return is a break of its own.
    have hsingle : (Piece.lineBreak .carriageReturn).char? = some '\n' := rfl
    refine ⟨bump_of_pieces hsingle ?_ rfl rfl, hcomplete, hexhausted⟩
    unfold pieces
    rw [piecesOfChars_cons fun _ => hbreak, if_pos rfl]
    rfl

/-- A character is passed as the source passes it. -/
theorem pass_source (h : reader.Valid) {c : Char} {cs : List Char}
    (hbuffer : reader.buffer = c :: cs) :
    reader.source.bump = ((reader.drop.pass c).1, (reader.drop.pass c).2.source) ∧
      (reader.drop.pass c).2.Valid := by
  by_cases hcr : c = '\r'
  · subst hcr
    exact pass_carriageReturn h hbuffer
  -- Any other character is one piece of the source.
  have hpieces : reader.pieces =
      (if c = '\n' then .lineBreak .lineFeed else .char c) :: reader.drop.pieces := by
    unfold pieces drop
    rw [hbuffer, piecesOfChars_cons fun hc => absurd hc hcr, if_neg hcr]
    rfl
  unfold pass
  rw [if_neg hcr]
  by_cases hlf : c = '\n'
  · rw [if_pos hlf] at hpieces ⊢
    exact ⟨bump_of_pieces rfl hpieces rfl rfl, h.drop.complete, h.drop.exhausted⟩
  · rw [if_neg hlf] at hpieces ⊢
    exact ⟨bump_of_pieces rfl hpieces rfl rfl, h.drop.complete, h.drop.exhausted⟩

/-- A reader hands out what its source hands out. -/
theorem bump_source (h : reader.Valid) :
    reader.source.bump = (reader.bump.1, reader.bump.2.source) ∧ reader.bump.2.Valid := by
  obtain ⟨hfills, hvalid⟩ := fill_fills h
  unfold bump peek
  generalize reader.fill = filled at hfills hvalid
  cases hfills with
  | @ready filled hsource hready =>
    rw [← hsource]
    -- Nothing is left on either side, or the first character is passed on both.
    cases hbuffer : filled.buffer with
    | nil =>
      simp only [hbuffer, List.head?_nil]
      rw [source_of_atEnd hbuffer (hready.resolve_left (not_not.mpr hbuffer))]
      exact ⟨rfl, hvalid⟩
    | cons c cs =>
      simp only [hbuffer, List.head?_cons]
      exact pass_source hvalid hbuffer
  | failed hsource hahead he =>
    refine ⟨?_, hvalid⟩
    have haccess := Source.access_of_nil hahead .bump
    unfold Edge.close at haccess
    rw [he] at haccess
    rw [hsource]
    exact haccess
  | dropped hahead hp hsource =>
    refine ⟨?_, hvalid⟩
    rw [hsource]
    exact Source.access_of_undecodable hahead hp .bump

/-- Every access to a reader is the same access to its source. -/
theorem access_source (h : reader.Valid) (a : Access) :
    reader.source.access a = ((reader.access a).1, (reader.access a).2.source) ∧
      (reader.access a).2.Valid := by
  cases a with
  | peek => exact peek_source h
  | bump => exact bump_source h

/-- A reader answers any sequence of accesses like its source. -/
theorem history_source (h : reader.Valid) (accesses : List Access) :
    history Source.access reader.source accesses = ((history access reader accesses).1,
      (history access reader accesses).2.source) := by
  induction accesses generalizing reader with
  | nil => rfl
  | cons a accesses ih =>
    obtain ⟨haccess, hvalid⟩ := access_source h a
    rw [history, haccess, history]
    simp only [ih hvalid]

end Reader

end Brisk
