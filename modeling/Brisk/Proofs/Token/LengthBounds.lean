import Brisk.Proofs.Source.Breaks
import Brisk.Proofs.Token.Written

/-!
# The bounds on strings and comments

A string literal is taken if it stands for at most as many characters as the bound says, and refused
where it starts if it stands for more; a comment is skipped or refused in the same way
(`Lexer.lengths_bounded`). What ends them early is found first as long as the bound is kept: an
escape sequence that does not exist, or the end of the source.

Characters are counted as they are read, so an escape sequence counts as one character and so does a
line break in any style. `Quoted` says how the content of a string stands in a source, and
`Source.Reaches` where a text stands in what is left of it. `Scan.Bounded` says what it means for a
loop to count against a bound, and each of the three loops is described by it.
-/

namespace Brisk

/-! ## Texts in place -/

/-- Other pieces may follow those that are left. -/
theorem Spells.append_right {rest rest' : List Placed} {cs : List Char} (h : Spells rest cs rest')
    (more : List Placed) : Spells (rest ++ more) cs (rest' ++ more) := by
  induction h with
  | nil rest => exact .nil _
  | cons hc _ ih => exact .cons hc ih

namespace Source

/-- Whether what is left of a source starts with blanks, and behind them with the pieces of `text`,
the first of which stands at `p`, in front of `more`. -/
def Reaches (src : Source) (p : Position) (text : List Char) (more : List Placed) : Prop :=
  ∃ blanks, (∀ c ∈ blanks, Text.isBlank c = true) ∧
    Spells src.ahead blanks ((place p (piecesOfChars text)).1 ++ more)

/-- Where a text is placed, its pieces spell the normalized text. -/
theorem spells_place_append (text : List Char) (p : Position) (more : List Placed) :
    Spells ((place p (piecesOfChars text)).1 ++ more) (Text.normalize text) more :=
  (spells_place text p).append_right more

/-- A character that breaks no line is the first piece of a text that starts with it. -/
theorem place_piecesOfChars_cons {c : Char} (hlf : c ≠ '\n') (hcr : c ≠ '\r') (cs : List Char)
    (p : Position) : (place p (piecesOfChars (c :: cs))).1 =
      ⟨.char c, p⟩ :: (place p.right (piecesOfChars cs)).1 := by
  rw [piecesOfChars, if_neg hcr, if_neg hlf]
  · rfl
  · intro _ hc
    exact absurd hc hcr

end Source

/-! ## Strings -/

/-- How the content of a string stands in a source: each character as itself or by an escape
sequence, and a line feed as a line break of any style. A carriage return makes one line break with
a line feed directly behind it, so it is not written in front of one. -/
inductive Quoted : List Char → List Char → Prop where
  | nil : Quoted [] []
  | plain {c : Char} {raw content : List Char} (hquote : c ≠ '"') (hescape : c ≠ '\\')
      (hlf : c ≠ '\n') (hcr : c ≠ '\r') (h : Quoted raw content) : Quoted (c :: raw) (c :: content)
  | lineBreak (style : LineBreak) {raw content : List Char}
      (hnext : style = .carriageReturn → raw.head? ≠ some '\n') (h : Quoted raw content) :
      Quoted (style.written ++ raw) ('\n' :: content)
  | escape {e d : Char} {raw content : List Char} (he : Scan.unescape? e = some d)
      (h : Quoted raw content) : Quoted ('\\' :: e :: raw) (d :: content)

/-- With its line breaks as line feeds, the content is escaped. -/
theorem Quoted.escaped {raw content : List Char} (h : Quoted raw content) :
    Escaped (Text.normalize raw) content := by
  induction h with
  | nil => exact .nil
  | @plain c raw content hquote hescape _ hcr _ ih =>
    -- A plain character is no carriage return, so it is normalised by itself.
    have hsingle : '\r' ∉ [c] := by
      rw [List.mem_singleton]
      exact Ne.symm hcr
    have hnormal := Text.normalize_append_of_not_mem hsingle raw
    rw [List.singleton_append, List.singleton_append] at hnormal
    rw [hnormal]
    exact .plain hquote hescape ih
  | @lineBreak style raw content hnext _ ih =>
    -- A line break of any style is normalised to a line feed, which counts as one character.
    have hnormal : Text.normalize (style.written ++ raw) = '\n' :: Text.normalize raw := by
      cases style with
      | lineFeed =>
        have hsingle : '\r' ∉ ['\n'] := by decide
        exact Text.normalize_append_of_not_mem hsingle raw
      | carriageReturn => exact Text.normalize_append (hnext rfl)
      | both => rfl
    rw [hnormal]
    exact .plain (by decide) (by decide) ih
  | @escape e d raw content he _ ih =>
    -- Neither the backslash nor what it escapes is a carriage return.
    have hpair : '\r' ∉ ['\\', e] := by
      simp only [List.mem_cons, List.not_mem_nil, or_false, not_or]
      refine ⟨by decide, ?_⟩
      rintro rfl
      exact absurd he (by simp [Scan.unescape?])
    have hnormal := Text.normalize_append_of_not_mem hpair raw
    rw [List.cons_append, List.singleton_append, List.cons_append, List.singleton_append] at hnormal
    rw [hnormal]
    exact .escape he ih

namespace Scan

/-! ## Counting against a bound -/

section Bounded

variable {α : Type} {bound length n : Nat} {fault : LexError} {scan after : Outcome α}

/-- Whether a scan that has counted `length` characters takes `n` more if they keep the bound, and
then goes on as `after`, and is refused with `fault` if they do not. -/
def Bounded (bound length n : Nat) (fault : LexError) (scan after : Outcome α) : Prop :=
  if length + n ≤ bound then scan = after else scan.1 = .error fault

/-- A scan that goes on within the bound is bounded by it. -/
theorem Bounded.of_eq (hlength : length ≤ bound) (h : scan = after) :
    Bounded bound length 0 fault scan after := by
  unfold Bounded
  rw [Nat.add_zero, if_pos hlength, h]

/-- A scan checks the bound before it takes a character. -/
theorem Bounded.step {rest : List Placed}
    (h : length + 1 ≤ bound → Bounded bound (length + 1) n fault scan after) :
    Bounded bound length (n + 1) fault
      (if bound < length + 1 then (.error fault, rest) else scan) after := by
  unfold Bounded at *
  have hcount : length + (n + 1) = length + 1 + n := by omega
  rw [hcount]
  -- A bound that the next character exceeds is exceeded by all of them.
  by_cases hone : bound < length + 1
  · rw [if_pos hone, if_neg (by omega)]
  · rw [if_neg hone]
    exact h (by omega)

/-- What is as long as the bound says at most is scanned. -/
theorem Bounded.eq_of_le (h : Bounded bound 0 n fault scan after) (hle : n ≤ bound) :
    scan = after := by
  unfold Bounded at h
  rwa [Nat.zero_add, if_pos hle] at h

/-- What is longer is refused. -/
theorem Bounded.refused (h : Bounded bound 0 n fault scan after) (hlong : ¬n ≤ bound) :
    scan.1 = .error fault := by
  unfold Bounded at h
  rwa [Nat.zero_add, if_neg hlong] at h

end Bounded

/-! ## The three scans -/

variable {limits : Limits} {edge : Edge} {start : Position} {rest mid : List Placed}

/-- A character that stands for itself is taken if it keeps the bound. -/
theorem string_plain {p : Placed} {c : Char} (hc : p.piece.char? = some c) (hquote : c ≠ '"')
    (hescape : c ≠ '\\') (length : Nat) (behind : List Char) :
    string limits edge start length behind (p :: rest) =
      if limits.string < length + 1 then
        (.error (.invalid start (.stringTooLong limits.string)), rest)
      else string limits edge start (length + 1) (c :: behind) rest := by
  rw [string.eq_def]
  simp only [hc, if_neg hquote, if_neg hescape]

/-- An escape sequence is taken as one character if it keeps the bound. -/
theorem string_escape {p q : Placed} {e d : Char} (hp : p.piece.char? = some '\\')
    (hq : q.piece.char? = some e) (he : unescape? e = some d) (length : Nat)
    (behind : List Char) :
    string limits edge start length behind (p :: q :: rest) =
      if limits.string < length + 1 then
        (.error (.invalid start (.stringTooLong limits.string)), rest)
      else string limits edge start (length + 1) (d :: behind) rest := by
  have hquote : ¬('\\' = '"') := by decide
  rw [string.eq_def]
  simp only [hp, hq, he, if_neg hquote, if_true]

/-- The content of a string is taken or refused, whatever stands behind it. -/
theorem string_of_escaped {cs content : List Char} (h : Escaped cs content)
    (hspells : Spells rest cs mid) {length : Nat} (hlength : length ≤ limits.string)
    (behind : List Char) :
    Bounded limits.string length content.length (.invalid start (.stringTooLong limits.string))
      (string limits edge start length behind rest)
      (string limits edge start (length + content.length) (content.reverse ++ behind) mid) := by
  -- What is collected grows in front of what has been, and the length by one.
  have hcons : ∀ (c : Char) (cs tail : List Char) (k : Nat),
      (c :: cs).reverse ++ tail = cs.reverse ++ c :: tail ∧
        k + (c :: cs).length = k + 1 + cs.length := by
    intro c cs tail k
    rw [List.reverse_cons, List.append_assoc, List.length_cons]
    exact ⟨rfl, by omega⟩
  induction h generalizing length behind rest with
  | nil =>
    cases hspells
    exact .of_eq hlength rfl
  | @plain c cs content hquote hescape _ ih =>
    obtain _ | ⟨hc, hspells⟩ := hspells
    rw [string_plain hc hquote hescape, (hcons c content behind length).1,
      (hcons c content behind length).2]
    exact .step fun hle => ih hspells hle (c :: behind)
  | @escape e d cs content he _ ih =>
    obtain _ | ⟨hp, _ | ⟨hq, hspells⟩⟩ := hspells
    rw [string_escape hp hq he, (hcons d content behind length).1,
      (hcons d content behind length).2]
    exact .step fun hle => ih hspells hle (d :: behind)

/-- A quotation mark ends a string. -/
theorem string_of_quote (h : Spells rest ['"'] mid) (length : Nat) (behind : List Char) :
    string limits edge start length behind rest =
      (.ok (.str (String.ofList behind.reverse)), mid) := by
  obtain _ | ⟨hc, hmid⟩ := h
  cases hmid
  rw [string.eq_def]
  simp only [hc, if_true]

/-- A backslash in front of a character that it forms no escape sequence with is refused. -/
theorem string_of_unknown {cs : List Char} {c : Char} (h : Spells rest ('\\' :: c :: cs) mid)
    (hc : unescape? c = none) (length : Nat) (behind : List Char) :
    (string limits edge start length behind rest).1 =
      .error (.invalid start (.invalidEscape c)) := by
  obtain _ | ⟨hp, _ | ⟨hq, -⟩⟩ := h
  have hquote : ¬('\\' = '"') := by decide
  rw [string.eq_def]
  simp only [hp, hq, hc, if_neg hquote, if_true]

/-- The source ends in a string, or behind a backslash in it. -/
theorem string_of_end {cs : List Char} (hfailure : edge.failure = none)
    (hcs : cs = [] ∨ cs = ['\\']) (h : Spells rest cs []) (length : Nat) (behind : List Char) :
    (string limits edge start length behind rest).1 =
      .error (.invalid start .unterminatedString) := by
  obtain rfl | rfl := hcs
  · cases h
    rw [string, atEdge, hfailure]
  · obtain _ | ⟨hp, hrest⟩ := h
    cases hrest
    have hquote : ¬('\\' = '"') := by decide
    rw [string.eq_def]
    simp only [hp, if_neg hquote, if_true, atEdge, hfailure]

/-- A comment that ends with its line is skipped up to the line break or the end, or refused. -/
theorem skipLine_of_spells {content : List Char} (hspells : Spells rest content mid)
    (hline : '\n' ∉ content) (hend : ∀ q ∈ mid.head?, ∃ style, q.piece = .lineBreak style)
    {length : Nat} (hlength : length ≤ limits.comment) :
    Bounded limits.comment length content.length (.invalid start (.commentTooLong limits.comment))
      (skipLine limits edge start length rest) (skip limits edge mid) := by
  induction hspells generalizing length with
  | nil mid =>
    refine .of_eq hlength ?_
    -- The end of the source or a line break ends the comment.
    cases mid with
    | nil => rw [skipLine, skip]
    | cons q mid =>
      obtain ⟨style, hq⟩ := hend q rfl
      rw [skipLine, skip]
      simp only [hq]
  | @cons q rest mid c content hc _ ih =>
    -- A character of the line is one more within the bound.
    rw [List.mem_cons, not_or] at hline
    rw [skipLine]
    simp only [Piece.eq_char_of_char? hc (Ne.symm hline.1)]
    exact .step fun hle => ih hline.2 hend hle

/-- A character of a comment that a star and a slash end is skipped if it keeps the bound, unless it
is a star and what is behind it cannot be looked at or ends the comment. -/
theorem skipBlock_cons {p : Placed} {c : Char} (hc : p.piece.char? = some c)
    (hnext : c = '*' → (rest = [] ∧ edge.failure = none) ∨
      ∃ q more, rest = q :: more ∧ q.piece ≠ .undecodable ∧ q.piece ≠ .char '/')
    (length : Nat) : skipBlock limits edge start length (p :: rest) =
      if limits.comment < length + 1 then
        (.error (.invalid start (.commentTooLong limits.comment)), rest)
      else skipBlock limits edge start (length + 1) rest := by
  have hdecodable : p.piece ≠ .undecodable := by
    intro hp
    rw [hp] at hc
    exact absurd hc (by simp [Piece.char?])
  rw [skipBlock.eq_def]
  by_cases hstar : c = '*'
  · subst hstar
    have hp : p.piece = .char '*' := Piece.eq_char_of_char? hc (by decide)
    -- Behind a star the source ends, or there is a character that is no slash.
    obtain ⟨rfl, hfailure⟩ | ⟨q, more, rfl, hq, hslash⟩ := hnext rfl
    · rw [skipBlock]
      simp only [if_neg hdecodable, if_pos hp, atEdge, hfailure]
    · simp only [if_neg hdecodable, if_pos hp, if_neg hq, if_neg hslash]
  · have hp : p.piece ≠ .char '*' := by
      intro hp
      rw [hp] at hc
      exact hstar (Option.some.inj hc).symm
    simp only [if_neg hdecodable, if_neg hp]

/-- Behind the content of a comment that a star and a slash end, or that nothing ends: the source
ends, or there is a star. -/
def ContentEnds (edge : Edge) (mid : List Placed) : Prop :=
  (mid = [] ∧ edge.failure = none) ∨ ∃ q more, mid = q :: more ∧ q.piece = .char '*'

/-- A star in the content of a comment is followed by what can be looked at and is no slash. -/
theorem next_of_star {content : List Char} (hspells : Spells rest content mid)
    (hinside : ¬['*', '/'] <:+: '*' :: content) (hmid : ContentEnds edge mid) :
    (rest = [] ∧ edge.failure = none) ∨
      ∃ q more, rest = q :: more ∧ q.piece ≠ .undecodable ∧ q.piece ≠ .char '/' := by
  cases hspells with
  | nil =>
    obtain hend | ⟨q, more, rfl, hq⟩ := hmid
    · -- The source ends, without a failure.
      exact .inl hend
    · -- What stands behind is decodable, and no slash.
      refine .inr ⟨q, more, rfl, ?_, ?_⟩
      · rw [hq]
        simp
      · rw [hq]
        simp
  | @cons q more _ d content hd _ =>
    refine .inr ⟨q, more, rfl, ?_, ?_⟩
    · -- A character of the content is decodable, and not the slash that would end the comment.
      intro hq
      rw [hq] at hd
      exact absurd hd (by simp [Piece.char?])
    · intro hq
      rw [hq] at hd
      obtain rfl := Option.some.inj hd
      exact hinside ⟨[], content, rfl⟩

/-- The content of a comment that a star and a slash end is skipped or refused. -/
theorem skipBlock_of_spells {content : List Char} (hspells : Spells rest content mid)
    (hinside : ¬['*', '/'] <:+: content) (hmid : ContentEnds edge mid) {length : Nat}
    (hlength : length ≤ limits.comment) :
    Bounded limits.comment length content.length (.invalid start (.commentTooLong limits.comment))
      (skipBlock limits edge start length rest)
      (skipBlock limits edge start (length + content.length) mid) := by
  induction hspells generalizing length with
  | nil => exact .of_eq hlength rfl
  | @cons p rest mid c content hc hspells ih =>
    have htail : ¬['*', '/'] <:+: content :=
      fun h => hinside (h.trans (List.suffix_cons c _).isInfix)
    have hnext := fun hstar : c = '*' => next_of_star hspells (hstar ▸ hinside) hmid
    have hcount : length + (c :: content).length = length + 1 + content.length := by
      rw [List.length_cons]
      omega
    rw [skipBlock_cons hc hnext, hcount]
    exact .step fun hle => ih htail hmid hle

/-- A star and a slash end a comment. -/
theorem skipBlock_of_close (h : Spells rest ['*', '/'] mid) (length : Nat) :
    skipBlock limits edge start length rest = skip limits edge mid := by
  obtain _ | ⟨hstar, _ | ⟨hslash, hmid⟩⟩ := h
  cases hmid
  have hp := Piece.eq_char_of_char? hstar (by decide)
  have hq := Piece.eq_char_of_char? hslash (by decide)
  rw [skipBlock.eq_def]
  simp [hp, hq]

end Scan

/-! ## Scans -/

namespace Lexer

variable {lexer : Lexer} {p : Position} {more : List Placed}

/-- The lexer with other pieces left. -/
def withAhead (lexer : Lexer) (ahead : List Placed) : Lexer :=
  { lexer with source := { lexer.source with ahead } }

/-- Where skipping is the same, so is the next token. -/
theorem next_eq_of_skip {ahead : List Placed}
    (h : Scan.skip lexer.limits lexer.source.edge lexer.source.ahead =
      Scan.skip lexer.limits lexer.source.edge ahead) :
    lexer.next = (lexer.withAhead ahead).next := by
  unfold next Source.lexeme Scan.lexeme withAhead
  rw [h]

/-- What is met while skipping is reported. -/
theorem next_of_skip_error {e : LexError}
    (h : (Scan.skip lexer.limits lexer.source.edge lexer.source.ahead).1 = .error e) :
    lexer.next.1 = .error e := by
  unfold next Source.lexeme Scan.lexeme
  generalize Scan.skip lexer.limits lexer.source.edge lexer.source.ahead = skipped at h
  obtain ⟨result, rest⟩ := skipped
  obtain rfl : result = .error e := h
  rfl

/-- A comment that is met while skipping is skipped if it keeps the bound, and refused if not. -/
theorem next_of_bounded {n : Nat} {fault : LexError} {ahead : List Placed}
    {scan : Scan.Outcome (Option (Char × Position))}
    (hskip : Scan.skip lexer.limits lexer.source.edge lexer.source.ahead = scan)
    (h : Scan.Bounded lexer.limits.comment 0 n fault scan
      (Scan.skip lexer.limits lexer.source.edge ahead)) :
    if n ≤ lexer.limits.comment then lexer.next = (lexer.withAhead ahead).next
    else lexer.next.1 = .error fault := by
  split
  next hle => exact next_eq_of_skip (hskip.trans (h.eq_of_le hle))
  next hlong => exact next_of_skip_error (hskip ▸ h.refused hlong)

/-- At a quotation mark, the next token is a string. -/
theorem next_of_quote {cs : List Char} (h : lexer.source.Reaches p ('"' :: cs) more) :
    ∃ rest, Spells rest (Text.normalize cs) more ∧
      lexer.next = ((Scan.string lexer.limits lexer.source.edge p 0 [] rest).1.map (⟨·, p⟩),
        lexer.withAhead (Scan.string lexer.limits lexer.source.edge p 0 [] rest).2) := by
  obtain ⟨blanks, hblanks, hspells⟩ := h
  rw [Source.place_piecesOfChars_cons (by decide) (by decide)] at hspells
  refine ⟨_, Source.spells_place_append cs p.right more, ?_⟩
  have hskip : Scan.skip lexer.limits lexer.source.edge lexer.source.ahead =
      (.ok (some ('"', p)), (Source.place p.right (Source.piecesOfChars cs)).1 ++ more) := by
    rw [Scan.skip_of_blanks hspells hblanks, List.cons_append, Scan.skip]
    rfl
  unfold next Source.lexeme Scan.lexeme
  rw [hskip]
  rfl

/-- At two slashes, a comment that ends with its line is skipped. -/
theorem skip_of_lineComment {cs : List Char}
    (h : lexer.source.Reaches p ('/' :: '/' :: cs) more) :
    ∃ rest, Spells rest (Text.normalize cs) more ∧
      Scan.skip lexer.limits lexer.source.edge lexer.source.ahead =
        Scan.skipLine lexer.limits lexer.source.edge p 0 rest := by
  obtain ⟨blanks, hblanks, hspells⟩ := h
  rw [Source.place_piecesOfChars_cons (by decide) (by decide),
    Source.place_piecesOfChars_cons (by decide) (by decide)] at hspells
  refine ⟨_, Source.spells_place_append cs p.right.right more, ?_⟩
  rw [Scan.skip_of_blanks hspells hblanks, List.cons_append, List.cons_append, Scan.skip]
  rfl

/-- At a slash and a star, a comment is skipped that a star and a slash end. -/
theorem skip_of_blockComment {cs : List Char}
    (h : lexer.source.Reaches p ('/' :: '*' :: cs) more) :
    ∃ rest, Spells rest (Text.normalize cs) more ∧
      Scan.skip lexer.limits lexer.source.edge lexer.source.ahead =
        Scan.skipBlock lexer.limits lexer.source.edge p 0 rest := by
  obtain ⟨blanks, hblanks, hspells⟩ := h
  rw [Source.place_piecesOfChars_cons (by decide) (by decide),
    Source.place_piecesOfChars_cons (by decide) (by decide)] at hspells
  refine ⟨_, Source.spells_place_append cs p.right.right more, ?_⟩
  rw [Scan.skip_of_blanks hspells hblanks, List.cons_append, List.cons_append, Scan.skip]
  rfl

/-- A string is taken if it keeps the bound, and refused where it starts if not. -/
theorem string_bounded {raw : List Char} {s : String} (hquoted : Quoted raw s.toList)
    (h : lexer.source.Reaches p ('"' :: (raw ++ ['"'])) more) :
    if s.length ≤ lexer.limits.string then
      lexer.next = (.ok ⟨.str s, p⟩, lexer.withAhead more)
    else lexer.next.1 = .error (.invalid p (.stringTooLong lexer.limits.string)) := by
  obtain ⟨rest, hspells, hnext⟩ := next_of_quote h
  rw [Text.normalize_append (by decide)] at hspells
  -- The content is spelt in front of the closing quotation mark.
  obtain ⟨mid, hcontent, hquote⟩ := hspells.exists_of_append
  have hscan : Scan.Bounded lexer.limits.string 0 s.toList.length
      (.invalid p (.stringTooLong lexer.limits.string))
      (Scan.string lexer.limits lexer.source.edge p 0 [] rest) _ :=
    Scan.string_of_escaped hquoted.escaped hcontent (Nat.zero_le _) []
  rw [← String.length_toList]
  split
  -- All of the content is collected, and the quotation mark ends it.
  next hle =>
    rw [hnext, hscan.eq_of_le hle, Scan.string_of_quote hquote, List.append_nil,
      List.reverse_reverse, String.ofList_toList]
    rfl
  -- The bound is exceeded within the content.
  next hlong =>
    rw [hnext]
    simp only [hscan.refused hlong]
    rfl

/-- Content that keeps the bound leaves it to what stands behind it how a string goes on. -/
theorem next_of_content {raw tail : List Char} {s : String} (hquoted : Quoted raw s.toList)
    (hle : s.length ≤ lexer.limits.string) (htail : tail.head? ≠ some '\n')
    (h : lexer.source.Reaches p ('"' :: (raw ++ tail)) more) :
    ∃ mid, Spells mid (Text.normalize tail) more ∧
      lexer.next.1 = (Scan.string lexer.limits lexer.source.edge p s.toList.length
        s.toList.reverse mid).1.map (⟨·, p⟩) := by
  obtain ⟨rest, hspells, hnext⟩ := next_of_quote h
  rw [Text.normalize_append htail] at hspells
  obtain ⟨mid, hcontent, hmid⟩ := hspells.exists_of_append
  rw [← String.length_toList] at hle
  refine ⟨mid, hmid, ?_⟩
  rw [hnext, (Scan.string_of_escaped hquoted.escaped hcontent (Nat.zero_le _) []).eq_of_le hle,
    Nat.zero_add, List.append_nil]

/-- An escape sequence that does not exist is refused if the content in front keeps the bound. -/
theorem escape_refused {raw behind : List Char} {s : String} {c : Char}
    (hquoted : Quoted raw s.toList) (hle : s.length ≤ lexer.limits.string)
    (hhead : (Text.normalize behind).head? = some c) (hc : Scan.unescape? c = none)
    (h : lexer.source.Reaches p ('"' :: (raw ++ '\\' :: behind)) more) :
    lexer.next.1 = .error (.invalid p (.invalidEscape c)) := by
  have htail : ('\\' :: behind).head? ≠ some '\n' := by
    rw [List.head?_cons]
    decide
  obtain ⟨mid, hmid, hnext⟩ := next_of_content hquoted hle htail h
  have hsingle : '\r' ∉ ['\\'] := by decide
  have hnormal := Text.normalize_append_of_not_mem hsingle behind
  rw [List.singleton_append, List.singleton_append] at hnormal
  obtain ⟨cs, hcs⟩ := List.head?_eq_some_iff.mp hhead
  rw [hnormal, hcs] at hmid
  rw [hnext, Scan.string_of_unknown hmid hc]
  rfl

/-- A string in which the source ends is refused for that if the content keeps the bound. -/
theorem string_unterminated {raw tail : List Char} {s : String} (hquoted : Quoted raw s.toList)
    (hle : s.length ≤ lexer.limits.string) (hfailure : lexer.source.edge.failure = none)
    (htail : tail = [] ∨ tail = ['\\'])
    (h : lexer.source.Reaches p ('"' :: (raw ++ tail)) []) :
    lexer.next.1 = .error (.invalid p .unterminatedString) := by
  have hhead : tail.head? ≠ some '\n' := by
    obtain rfl | rfl := htail <;> decide
  have hnormal : Text.normalize tail = [] ∨ Text.normalize tail = ['\\'] := by
    obtain rfl | rfl := htail
    · exact .inl rfl
    · exact .inr rfl
  obtain ⟨mid, hmid, hnext⟩ := next_of_content hquoted hle hhead h
  rw [hnext, Scan.string_of_end hfailure hnormal hmid]
  rfl

/-- A comment that ends with its line is skipped if it keeps the bound, and refused where it starts
if not. -/
theorem lineComment_bounded {content : List Char} (hlf : '\n' ∉ content) (hcr : '\r' ∉ content)
    (hend : ∀ q ∈ more.head?, ∃ style, q.piece = .lineBreak style)
    (h : lexer.source.Reaches p ('/' :: '/' :: content) more) :
    if content.length ≤ lexer.limits.comment then lexer.next = (lexer.withAhead more).next
    else lexer.next.1 = .error (.invalid p (.commentTooLong lexer.limits.comment)) := by
  obtain ⟨rest, hspells, hskip⟩ := skip_of_lineComment h
  have hnormal := Text.normalize_append_of_not_mem hcr []
  rw [List.append_nil, Text.normalize, List.append_nil] at hnormal
  rw [hnormal] at hspells
  exact next_of_bounded hskip (Scan.skipLine_of_spells hspells hlf hend (Nat.zero_le _))

/-- A comment that a star and a slash end is skipped if it keeps the bound, and refused where it
starts if not. -/
theorem blockComment_bounded {raw : List Char} (hinside : ¬['*', '/'] <:+: Text.normalize raw)
    (h : lexer.source.Reaches p ('/' :: '*' :: (raw ++ ['*', '/'])) more) :
    if (Text.normalize raw).length ≤ lexer.limits.comment then
      lexer.next = (lexer.withAhead more).next
    else lexer.next.1 = .error (.invalid p (.commentTooLong lexer.limits.comment)) := by
  obtain ⟨rest, hspells, hskip⟩ := skip_of_blockComment h
  rw [Text.normalize_append (by decide)] at hspells
  obtain ⟨mid, hcontent, hclose⟩ := hspells.exists_of_append
  have hmid : Scan.ContentEnds lexer.source.edge mid := by
    obtain _ | ⟨hstar, -⟩ := hclose
    exact .inr ⟨_, _, rfl, Piece.eq_char_of_char? hstar (by decide)⟩
  refine next_of_bounded hskip ?_
  rw [← Scan.skipBlock_of_close hclose]
  exact Scan.skipBlock_of_spells hcontent hinside hmid (Nat.zero_le _)

/-- A comment in which the source ends is refused where it starts, for that if it keeps the
bound. -/
theorem blockComment_unterminated {raw : List Char}
    (hinside : ¬['*', '/'] <:+: Text.normalize raw) (hfailure : lexer.source.edge.failure = none)
    (h : lexer.source.Reaches p ('/' :: '*' :: raw) []) :
    lexer.next.1 = .error (.invalid p
      (if (Text.normalize raw).length ≤ lexer.limits.comment then .unterminatedComment
        else .commentTooLong lexer.limits.comment)) := by
  obtain ⟨rest, hspells, hskip⟩ := skip_of_blockComment h
  have hmid : Scan.ContentEnds lexer.source.edge [] := .inl ⟨rfl, hfailure⟩
  have hscan : Scan.Bounded lexer.limits.comment 0 (Text.normalize raw).length
      (.invalid p (.commentTooLong lexer.limits.comment))
      (Scan.skipBlock lexer.limits lexer.source.edge p 0 rest) _ :=
    Scan.skipBlock_of_spells hspells hinside hmid (Nat.zero_le _)
  refine next_of_skip_error ?_
  rw [hskip]
  split
  next hle => rw [hscan.eq_of_le hle, Scan.skipBlock, Scan.atEdge, hfailure]
  next hlong => exact hscan.refused hlong

/-- Strings and comments are bounded exactly, wherever they stand behind blanks.

A string that stands for `s`, however it is written, is the next token if `s` is not longer than the
bound, and refused at its quotation mark otherwise. If `s` keeps the bound, but an escape sequence
that does not exist or the end of the source stands behind it, that is the fault.

A comment is skipped, as if the source went on behind it, if its content is not longer than the
bound, and refused at its first slash otherwise. The content is what stands in front of the line
break or of the first star and slash, and a line break in it is one character. If the source ends in
it, that is the fault if it keeps the bound. -/
theorem lengths_bounded (lexer : Lexer) (p : Position) (more : List Placed) :
    (∀ (raw : List Char) (s : String), Quoted raw s.toList →
      (lexer.source.Reaches p ('"' :: (raw ++ ['"'])) more →
        if s.length ≤ lexer.limits.string then
          lexer.next = (.ok ⟨.str s, p⟩, lexer.withAhead more)
        else lexer.next.1 = .error (.invalid p (.stringTooLong lexer.limits.string))) ∧
      (s.length ≤ lexer.limits.string →
        (∀ behind c, (Text.normalize behind).head? = some c → Scan.unescape? c = none →
          lexer.source.Reaches p ('"' :: (raw ++ '\\' :: behind)) more →
          lexer.next.1 = .error (.invalid p (.invalidEscape c))) ∧
        (lexer.source.edge.failure = none → ∀ tail, tail = [] ∨ tail = ['\\'] →
          lexer.source.Reaches p ('"' :: (raw ++ tail)) [] →
          lexer.next.1 = .error (.invalid p .unterminatedString)))) ∧
    (∀ content : List Char, '\n' ∉ content → '\r' ∉ content →
      (∀ q ∈ more.head?, ∃ style, q.piece = .lineBreak style) →
      lexer.source.Reaches p ('/' :: '/' :: content) more →
      if content.length ≤ lexer.limits.comment then lexer.next = (lexer.withAhead more).next
      else lexer.next.1 = .error (.invalid p (.commentTooLong lexer.limits.comment))) ∧
    (∀ raw : List Char, ¬['*', '/'] <:+: Text.normalize raw →
      (lexer.source.Reaches p ('/' :: '*' :: (raw ++ ['*', '/'])) more →
        if (Text.normalize raw).length ≤ lexer.limits.comment then
          lexer.next = (lexer.withAhead more).next
        else lexer.next.1 = .error (.invalid p (.commentTooLong lexer.limits.comment))) ∧
      (lexer.source.edge.failure = none →
        lexer.source.Reaches p ('/' :: '*' :: raw) [] →
        lexer.next.1 = .error (.invalid p
          (if (Text.normalize raw).length ≤ lexer.limits.comment then .unterminatedComment
            else .commentTooLong lexer.limits.comment)))) := by
  refine ⟨fun raw s hquoted => ⟨string_bounded hquoted, fun hle => ⟨?_, ?_⟩⟩, ?_, ?_⟩
  · intro behind c hhead hc h
    exact escape_refused hquoted hle hhead hc h
  · intro hfailure tail htail h
    exact string_unterminated hquoted hle hfailure htail h
  · intro content hlf hcr hend h
    exact lineComment_bounded hlf hcr hend h
  · intro raw hinside
    exact ⟨blockComment_bounded hinside, blockComment_unterminated hinside⟩

/-- A string of a letter and a line break has two characters, and a comment of a star has one. -/
theorem lengths_bounded_break :
    let source (text : List Char) : Source := .ofPieces (Source.piecesOfChars text) fun _ => none
    let literal : List Char := ['"', 'a', '\r', '\n', '"']
    let comment : List Char := ['/', '*', '*', '*', '/']
    Quoted ['a', '\r', '\n'] "a\n".toList ∧
      (Lexer.next ⟨.uniform 2, source literal, false⟩).1 = .ok ⟨.str "a\n", .start⟩ ∧
      (Lexer.next ⟨.uniform 1, source literal, false⟩).1 =
        .error (.invalid .start (.stringTooLong 1)) ∧
      ¬['*', '/'] <:+: Text.normalize ['*'] ∧
      (Lexer.next ⟨.uniform 1, source comment, false⟩) =
        Lexer.next (Lexer.withAhead ⟨.uniform 1, source comment, false⟩ []) ∧
      (Lexer.next ⟨.uniform 0, source comment, false⟩).1 =
        .error (.invalid .start (.commentTooLong 0)) := by
  intro source literal comment
  -- The whole source is the literal or the comment.
  have hreaches (text : List Char) : (source text).Reaches .start text [] := by
    refine ⟨[], by simp, ?_⟩
    rw [List.append_nil]
    exact .nil _
  have hquoted : Quoted ['a', '\r', '\n'] "a\n".toList :=
    .plain (by decide) (by decide) (by decide) (by decide) (.lineBreak .both (by decide) .nil)
  have hinside : ¬['*', '/'] <:+: Text.normalize ['*'] := by decide
  have hstring (n : Nat) := ((lengths_bounded ⟨.uniform n, source literal, false⟩ .start []).1
    _ _ hquoted).1 (hreaches literal)
  have hcomment (n : Nat) := ((lengths_bounded ⟨.uniform n, source comment, false⟩ .start []).2.2
    _ hinside).1 (hreaches comment)
  have htwo := hstring 2
  have hone := hstring 1
  have hskipped := hcomment 1
  have hrefused := hcomment 0
  rw [if_pos (by decide)] at htwo hskipped
  rw [if_neg (by decide)] at hone hrefused
  exact ⟨hquoted, congrArg Prod.fst htwo, hone, hinside, hskipped, hrefused⟩

end Lexer

end Brisk
