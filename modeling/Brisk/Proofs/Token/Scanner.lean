import Brisk.Proofs.Running
import Brisk.Proofs.Source.Reader
import Brisk.Token.Lexer

/-!
# Scanning with a buffer

A scan is laid out as a function of the pieces that are left of a source, while a `Scanner` works on
a reader that it moves on, character by character, and collects the characters of a token in a
buffer that it keeps for all of them. Its loops stop for no other reason than what they read.

A scanner stands for the pieces that are left of its reader's source (`Scanner.Stands`). What a
computation comes to is said for all scanners that stand for the same (`Scanner.Comes`), and the
rules for that follow the steps of a computation.
-/

namespace Brisk

/-- The state of a lexer. -/
structure Scanner where
  reader : Reader
  limits : Limits
  /-- What has been collected of a token, of the one before too until it is cleared. -/
  buffer : List Char

/-- Scanners at work. -/
abbrev Scanning := Running LexError Scanner

namespace Scanner

/-- A scanner of bytes of which nothing has been read. -/
def ofBytes (limits : Limits) (bytes : List UInt8) (ending : Source.Ending) : Scanner :=
  ⟨.ofBytes bytes ending, limits, []⟩

/-! ## Scanning -/

/-- Where the next character stands. -/
def position : Scanning Position := fun s => some (.ok s.reader.position, s)

/-- The bounds on tokens. -/
def bounds : Scanning Limits := fun s => some (.ok s.limits, s)

/-- Shows the next character. -/
def peek : Scanning (Option Char) := fun s =>
  let (answer, reader) := s.reader.peek
  some (answer.mapError .read, { s with reader })

/-- Takes the next character. -/
def bump : Scanning (Option Char) := fun s =>
  let (answer, reader) := s.reader.bump
  some (answer.mapError .read, { s with reader })

/-- Empties the buffer. -/
def clear : Scanning Unit := fun s => some (.ok (), { s with buffer := [] })

/-- Puts a character into the buffer. -/
def push (c : Char) : Scanning Unit := fun s =>
  some (.ok (), { s with buffer := s.buffer ++ [c] })

/-- The text in the buffer. -/
def collected : Scanning String := fun s => some (.ok (String.ofList s.buffer), s)

/-- Checks a length against the bound for what starts at `start`. -/
def within (start : Position) (bound : Limits → Nat) (fault : Nat → LexFault) (length : Nat) :
    Scanning Unit := do
  let max := bound (← bounds)
  if max < length then throw (.invalid start (fault max)) else return ()

/-- Skips a comment up to the line break behind it. -/
noncomputable def skipLine (start : Position) (length : Nat) : Scanning Unit :=
  Running.loop length fun length => do
    match ← peek with
    | none => return .done ()
    | some c =>
      if c = '\n' ∨ c = '\r' then return .done ()
      else
        let _ ← bump
        within start Limits.comment .commentTooLong (length + 1)
        return .again (length + 1) id

/-- Skips a comment up to the star and the slash that end it. -/
noncomputable def skipBlock (start : Position) (length : Nat) : Scanning Unit :=
  Running.loop length fun length => do
    match ← bump with
    | none => throw (.invalid start .unterminatedComment)
    | some c =>
      let next ← (if c = '*' then peek else pure none)
      if next = some '/' then
        let _ ← bump
        return .done ()
      else
        within start Limits.comment .commentTooLong (length + 1)
        return .again (length + 1) id

/-- Takes the character behind a backslash, for what both stand for. -/
def takeEscape (start : Position) : Scanning Char := do
  match ← bump with
  | none => throw (.invalid start .unterminatedString)
  | some e =>
    match Scan.unescape? e with
    | some d => return d
    | none => throw (.invalid start (.invalidEscape e))

/-- Collects the characters of a string literal up to its closing mark. -/
noncomputable def takeString (start : Position) (length : Nat) : Scanning Unit :=
  Running.loop length fun length => do
    match ← bump with
    | none => throw (.invalid start .unterminatedString)
    | some c =>
      if c = '"' then return .done ()
      else
        let d ← (if c = '\\' then takeEscape start else pure c)
        within start Limits.string .stringTooLong (length + 1)
        push d
        return .again (length + 1) id

/-- Collects digits. -/
noncomputable def takeDigits : Scanning Unit :=
  Running.loop () fun _ => do
    match ← peek with
    | none => return .done ()
    | some c =>
      if c.isDigit then
        let _ ← bump
        push c
        return .again () id
      else return .done ()

/-- Collects the characters of a word behind its first ones. -/
noncomputable def takeWord (start : Position) (length : Nat) : Scanning Unit :=
  Running.loop length fun length => do
    match ← peek with
    | none => return .done ()
    | some c =>
      if Scan.continuesWord c then
        let _ ← bump
        push c
        within start Limits.identifier .identifierTooLong (length + 1)
        return .again (length + 1) id
      else return .done ()

/-- A string literal, whose opening mark has been taken. -/
noncomputable def string (start : Position) : Scanning Token := do
  clear
  takeString start 0
  return .str (← collected)

/-- A number whose first digit has been taken. -/
noncomputable def number (start : Position) (c : Char) : Scanning Token := do
  clear
  push c
  takeDigits
  if (← peek) = some '.' then
    let _ ← bump
    push '.'
    takeDigits
    match Decimal.read? (← collected) with
    | some x => return .float x
    -- Digits with a point among them are always read.
    | none => Running.never
  else
    match Integer.read? (← collected) with
    | some n => return .int n
    | none => throw (.invalid start (.integerOutOfRange (← collected)))

/-- A word whose first character has been taken. -/
noncomputable def word (start : Position) (c : Char) : Scanning Token := do
  clear
  push c
  takeWord start 1
  return .ofWord (← collected)

/-- A symbol whose first character has been taken. -/
def symbol (start : Position) (c : Char) : Scanning Token := do
  let next ← (if Symbol.needsNext c then peek else pure none)
  match next.bind (Symbol.pair? c) with
  | some s =>
    let _ ← bump
    return .symbol s
  | none =>
    match Symbol.single? c with
    | some s => return .symbol s
    | none => throw (.invalid start (.notAToken c))

/-- The token that starts with a character that has been taken. -/
noncomputable def token (start : Position) (c : Char) : Scanning Token :=
  if c = '"' then string start
  else if c.isDigit then number start c
  else if Scan.startsWord c then word start c
  else symbol start c

/-- The next token, with the position of its first character. -/
noncomputable def scan : Scanning Lexeme :=
  Running.loop () fun _ => do
    let start ← position
    match ← bump with
    | none => return .done ⟨.endOfFile, start⟩
    | some c =>
      if Text.isBlank c then return .again () id
      else if c = '/' then
        match ← peek with
        | some '/' =>
          let _ ← bump
          skipLine start 0
          return .again () id
        | some '*' =>
          let _ ← bump
          skipBlock start 0
          return .again () id
        | _ => return .done ⟨.symbol .slash, start⟩
      else return .done ⟨← token start c, start⟩

/-! ## Loops as recursions -/

/-- A comment to the end of the line is skipped character by character. -/
theorem skipLine_eq (start : Position) (length : Nat) : skipLine start length = (do
    match ← peek with
    | none => return ()
    | some c =>
      if c = '\n' ∨ c = '\r' then return ()
      else
        let _ ← bump
        within start Limits.comment .commentTooLong (length + 1)
        skipLine start (length + 1)) := by
  rw [skipLine, Running.loop_eq, bind_assoc]
  refine bind_congr fun next => ?_
  cases next with
  | none => simp
  | some c =>
    -- A comment of one line ends in front of the break, which is read as a blank.
    by_cases hbreak : c = '\n' ∨ c = '\r'
    · simp [hbreak]
    · simp [hbreak, skipLine]

/-- A comment between its marks is skipped character by character, and the character behind a star
is looked at before it is taken. -/
theorem skipBlock_eq (start : Position) (length : Nat) : skipBlock start length = (do
    match ← bump with
    | none => throw (.invalid start .unterminatedComment)
    | some c =>
      let next ← (if c = '*' then peek else pure none)
      if next = some '/' then
        let _ ← bump
        return ()
      else
        within start Limits.comment .commentTooLong (length + 1)
        skipBlock start (length + 1)) := by
  rw [skipBlock, Running.loop_eq, bind_assoc]
  refine bind_congr fun answer => ?_
  cases answer with
  | none => simp
  | some c =>
    simp only [bind_assoc]
    refine bind_congr fun next => ?_
    -- A star is only the end if a slash stands behind it.
    by_cases hslash : next = some '/'
    · simp [hslash]
    · simp [hslash, skipBlock]

/-- The content of a string is taken character by character, and the one behind a backslash with
it. -/
theorem takeString_eq (start : Position) (length : Nat) : takeString start length = (do
    match ← bump with
    | none => throw (.invalid start .unterminatedString)
    | some c =>
      if c = '"' then return ()
      else
        let d ← (if c = '\\' then takeEscape start else pure c)
        within start Limits.string .stringTooLong (length + 1)
        push d
        takeString start (length + 1)) := by
  rw [takeString, Running.loop_eq, bind_assoc]
  refine bind_congr fun answer => ?_
  cases answer with
  | none => simp
  | some c =>
    -- A quotation mark that is not escaped ends the string.
    by_cases hquote : c = '"'
    · simp [hquote]
    · simp [hquote, takeString]

/-- Digits are taken as long as there are some. -/
theorem takeDigits_eq : takeDigits = (do
    match ← peek with
    | none => return ()
    | some c =>
      if c.isDigit then
        let _ ← bump
        push c
        takeDigits
      else return ()) := by
  show Running.loop () _ = _
  rw [Running.loop_eq, bind_assoc]
  refine bind_congr fun next => ?_
  cases next with
  | none => simp
  | some c =>
    by_cases hdigit : c.isDigit = true
    · simp [hdigit, takeDigits]
    · simp [hdigit]

/-- The characters of a word are taken as long as they continue it. -/
theorem takeWord_eq (start : Position) (length : Nat) : takeWord start length = (do
    match ← peek with
    | none => return ()
    | some c =>
      if Scan.continuesWord c then
        let _ ← bump
        push c
        within start Limits.identifier .identifierTooLong (length + 1)
        takeWord start (length + 1)
      else return ()) := by
  rw [takeWord, Running.loop_eq, bind_assoc]
  refine bind_congr fun next => ?_
  cases next with
  | none => simp
  | some c =>
    -- The first character that does not continue the word is left where it is.
    by_cases hword : Scan.continuesWord c = true
    · simp [hword, takeWord]
    · simp [hword]

/-- Blanks and comments are skipped one by one until a token starts, or the source ends. -/
theorem scan_eq : scan = (do
    let start ← position
    match ← bump with
    | none => return ⟨.endOfFile, start⟩
    | some c =>
      if Text.isBlank c then scan
      else if c = '/' then
        match ← peek with
        | some '/' =>
          let _ ← bump
          skipLine start 0
          scan
        | some '*' =>
          let _ ← bump
          skipBlock start 0
          scan
        | _ => return ⟨.symbol .slash, start⟩
      else return ⟨← token start c, start⟩) := by
  show Running.loop () _ = _
  rw [Running.loop_eq, bind_assoc]
  refine bind_congr fun start => ?_
  rw [bind_assoc]
  refine bind_congr fun answer => ?_
  cases answer with
  | none => simp
  | some c =>
    by_cases hblank : Text.isBlank c = true
    · simp [hblank, scan]
    by_cases hslash : c = '/'
    · simp only [if_neg hblank, if_pos hslash, bind_assoc]
      refine bind_congr fun next => ?_
      split <;> simp [scan]
    · simp [hblank, hslash]

/-! ## What a scanner stands for -/

/-- Whether a scanner stands for the pieces that are left of a source, and its buffer holds given
characters. -/
structure Stands (limits : Limits) (edge : Edge) (ahead : List Placed) (buffer : List Char)
    (s : Scanner) : Prop where
  valid : s.reader.Valid
  source : s.reader.source = ⟨ahead, edge⟩
  limits : s.limits = limits
  buffer : s.buffer = buffer

/-- Whether scanning comes to an outcome, for every scanner that stands for given pieces. -/
def Comes {α : Type} (limits : Limits) (edge : Edge) (ahead : List Placed) (buffer : List Char)
    (m : Scanning α) (outcome : Scan.Outcome α) : Prop :=
  ∀ s : Scanner, s.Stands limits edge ahead buffer →
    ∃ s' buffer', m s = some (outcome.1, s') ∧ s'.Stands limits edge outcome.2 buffer'

variable {α : Type} {limits : Limits} {edge : Edge} {ahead rest : List Placed} {p : Placed}
  {buffer : List Char} {c : Char} {start : Position} {length : Nat} {outcome : Scan.Outcome α}

/-- A result is come to without reading. -/
theorem comes_pure (a : α) : Comes limits edge ahead buffer (pure a) (.ok a, ahead) :=
  fun s hs => ⟨s, buffer, rfl, hs⟩

/-- An error is come to without reading. -/
theorem comes_throw (e : LexError) :
    Comes limits edge ahead buffer (throw e : Scanning α) (.error e, ahead) :=
  fun s hs => ⟨s, buffer, rfl, hs⟩

/-- What comes behind a part that does not fail. -/
theorem Comes.of_bind {β : Type} {m : Scanning β} {f : β → Scanning α} {b : β}
    {mid : List Placed} {buffer' : List Char}
    (hm : ∀ s : Scanner, s.Stands limits edge ahead buffer →
      ∃ s', m s = some (.ok b, s') ∧ s'.Stands limits edge mid buffer')
    (hf : Comes limits edge mid buffer' (f b) outcome) :
    Comes limits edge ahead buffer (m >>= f) outcome := by
  intro s hs
  obtain ⟨s', hok, hs'⟩ := hm s hs
  rw [Running.bind_of_ok hok]
  exact hf s' hs'

/-- The limits are those of the scanner. -/
theorem comes_bounds_bind {f : Limits → Scanning α}
    (hf : Comes limits edge ahead buffer (f limits) outcome) :
    Comes limits edge ahead buffer (bounds >>= f) outcome :=
  .of_bind (fun s hs => ⟨s, by rw [← hs.limits]; rfl, hs⟩) hf

/-- The place is that of the first piece that is left. -/
theorem comes_position_bind {f : Position → Scanning α}
    (hf : Comes limits edge ahead buffer (f (Source.position ⟨ahead, edge⟩)) outcome) :
    Comes limits edge ahead buffer (position >>= f) outcome := by
  refine .of_bind (fun s hs => ⟨s, ?_, hs⟩) hf
  rw [← hs.source, Reader.position_source]
  rfl

/-- What has been collected is in the buffer. -/
theorem comes_collected_bind {f : String → Scanning α}
    (hf : Comes limits edge ahead buffer (f (String.ofList buffer)) outcome) :
    Comes limits edge ahead buffer (collected >>= f) outcome :=
  .of_bind (fun s hs => ⟨s, by rw [← hs.buffer]; rfl, hs⟩) hf

section Within

variable {bound : Limits → Nat} {fault : Nat → LexFault} {f : Unit → Scanning α}

/-- A length beyond the bound is refused where the token starts. -/
theorem comes_within_bind_of_lt (h : bound limits < length) :
    Comes limits edge ahead buffer (within start bound fault length >>= f)
      (.error (.invalid start (fault (bound limits))), ahead) := by
  unfold within
  rw [bind_assoc]
  refine comes_bounds_bind ?_
  rw [if_pos h]
  exact comes_throw _

/-- A length within the bound is accepted. -/
theorem comes_within_bind_of_not_lt (h : ¬bound limits < length)
    (hf : Comes limits edge ahead buffer (f ()) outcome) :
    Comes limits edge ahead buffer (within start bound fault length >>= f) outcome := by
  unfold within
  rw [bind_assoc]
  refine comes_bounds_bind ?_
  rw [if_neg h]
  exact hf

/-- A bound decides between a refusal and what comes next. -/
theorem comes_within_bind (hf : Comes limits edge ahead buffer (f ()) outcome) :
    Comes limits edge ahead buffer (within start bound fault length >>= f)
      (if bound limits < length then (.error (.invalid start (fault (bound limits))), ahead)
        else outcome) := by
  split
  · next h => exact comes_within_bind_of_lt h
  · next h => exact comes_within_bind_of_not_lt h hf

end Within

/-- Clearing leaves an empty buffer. -/
theorem comes_clear_bind {f : Unit → Scanning α}
    (hf : Comes limits edge ahead [] (f ()) outcome) :
    Comes limits edge ahead buffer (clear >>= f) outcome :=
  .of_bind (fun _ hs => ⟨_, rfl, hs.valid, hs.source, hs.limits, rfl⟩) hf

/-- A character is added to the buffer at its end. -/
theorem comes_push_bind {f : Unit → Scanning α}
    (hf : Comes limits edge ahead (buffer ++ [c]) (f ()) outcome) :
    Comes limits edge ahead buffer (push c >>= f) outcome :=
  .of_bind (fun _ hs =>
    ⟨_, rfl, hs.valid, hs.source, hs.limits, congrArg (· ++ [c]) hs.buffer⟩) hf

/-- A scanner sees what its source shows. -/
theorem Stands.peek {s : Scanner} (hs : s.Stands limits edge ahead buffer) :
    ∃ s', peek s = some ((edge.peek ahead).1.mapError .read, s') ∧
      s'.Stands limits edge (edge.peek ahead).2 buffer := by
  obtain ⟨hpeek, hvalid⟩ := Reader.peek_source hs.valid
  rw [hs.source] at hpeek
  have hanswer : (edge.peek ahead).1 = s.reader.peek.1 := congrArg Prod.fst hpeek
  have hsource : ⟨(edge.peek ahead).2, edge⟩ = s.reader.peek.2.source := congrArg Prod.snd hpeek
  exact ⟨{ s with reader := s.reader.peek.2 }, by rw [hanswer]; rfl, hvalid, hsource.symm,
    hs.limits, hs.buffer⟩

/-- A scanner takes what its source hands out. -/
theorem Stands.bump {s : Scanner} (hs : s.Stands limits edge ahead buffer) :
    ∃ s', bump s = some ((edge.bump ahead).1.mapError .read, s') ∧
      s'.Stands limits edge (edge.bump ahead).2 buffer := by
  obtain ⟨hbump, hvalid⟩ := Reader.bump_source hs.valid
  rw [hs.source] at hbump
  have hanswer : (edge.bump ahead).1 = s.reader.bump.1 := congrArg Prod.fst hbump
  have hsource : ⟨(edge.bump ahead).2, edge⟩ = s.reader.bump.2.source := congrArg Prod.snd hbump
  exact ⟨{ s with reader := s.reader.bump.2 }, by rw [hanswer]; rfl, hvalid, hsource.symm,
    hs.limits, hs.buffer⟩

section Next

variable {f : Option Char → Scanning α}

/-- Looking at the next character hands it on. -/
theorem comes_peek_bind {go : Option Char → List Placed → Scan.Outcome α}
    (hf : ∀ next more, edge.peek ahead = (.ok next, more) →
      Comes limits edge more buffer (f next) (go next more)) :
    Comes limits edge ahead buffer (peek >>= f) (Scan.withNext edge ahead go) := by
  intro s hs
  obtain ⟨s', hpeek, hs'⟩ := hs.peek
  unfold Scan.withNext
  -- The next character has been looked at, or the source could not be read.
  cases hnext : edge.peek ahead with
  | mk answer more =>
    rw [hnext] at hpeek hs'
    cases answer with
    | ok next =>
      rw [Running.bind_of_ok hpeek]
      exact hf next more hnext s' hs'
    | error cause => exact ⟨s', buffer, Running.bind_of_error hpeek, hs'⟩

/-- At the edge of the source, the end or a failure is met. -/
theorem comes_bump_bind_nil {result : Except LexError α}
    (hf : Comes limits edge [] buffer (f none) (result, [])) :
    Comes limits edge [] buffer (bump >>= f) (Scan.atEdge edge result) := by
  intro s hs
  obtain ⟨s', hbump, hs'⟩ := hs.bump
  unfold Edge.bump Edge.close at hbump
  unfold Scan.atEdge
  cases hfailure : edge.failure with
  -- The edge fails, and nothing more is done.
  | some cause =>
    rw [hfailure] at hbump
    exact ⟨s', buffer, Running.bind_of_error hbump, hs'⟩
  | none =>
    -- The source has ended, which the next step sees.
    rw [hfailure] at hbump
    rw [Running.bind_of_ok hbump]
    exact hf s' hs'

/-- Taking a character goes on with the pieces behind it. -/
theorem comes_bump_bind (hp : p.piece.char? = some c)
    (hf : Comes limits edge rest buffer (f (some c)) outcome) :
    Comes limits edge (p :: rest) buffer (bump >>= f) outcome := by
  have hanswer : edge.bump (p :: rest) = (.ok (some c), rest) := by simp only [Edge.bump, hp]
  refine .of_bind (fun s hs => ?_) hf
  have hbump := hs.bump
  rw [hanswer] at hbump
  exact hbump

/-- A line that cannot be decoded is not taken as a character. -/
theorem comes_bump_bind_of_undecodable (hp : p.piece = .undecodable) :
    Comes limits edge (p :: rest) buffer (bump >>= f) (.error (Scan.undecodable p), rest) := by
  have hpiece : p.piece.char? = none := by rw [hp]; rfl
  have hanswer : edge.bump (p :: rest) = (.error (.invalidUtf8 p.position.line), rest) := by
    simp only [Edge.bump, hpiece]
  intro s hs
  obtain ⟨s', hbump, hs'⟩ := hs.bump
  rw [hanswer] at hbump hs'
  exact ⟨s', buffer, Running.bind_of_error hbump, hs'⟩

/-- Looking at a character leaves it in its place. -/
theorem comes_peek_bind_cons (hp : p.piece.raw? = some c)
    (hf : Comes limits edge (p :: rest) buffer (f (some c)) outcome) :
    Comes limits edge (p :: rest) buffer (peek >>= f) outcome := by
  have hanswer : edge.peek (p :: rest) = (.ok (some c), p :: rest) := by simp only [Edge.peek, hp]
  refine .of_bind (fun s hs => ?_) hf
  have hpeek := hs.peek
  rw [hanswer] at hpeek
  exact hpeek

/-- A line that cannot be decoded is dropped when it is looked at. -/
theorem comes_peek_bind_of_undecodable (hp : p.piece = .undecodable) :
    Comes limits edge (p :: rest) buffer (peek >>= f) (.error (Scan.undecodable p), rest) := by
  have hpiece : p.piece.raw? = none := by rw [hp]; rfl
  have hanswer : edge.peek (p :: rest) = (.error (.invalidUtf8 p.position.line), rest) := by
    simp only [Edge.peek, hpiece]
  intro s hs
  obtain ⟨s', hpeek, hs'⟩ := hs.peek
  rw [hanswer] at hpeek hs'
  exact ⟨s', buffer, Running.bind_of_error hpeek, hs'⟩

end Next

end Scanner

end Brisk
