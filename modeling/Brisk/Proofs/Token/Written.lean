import Brisk.Proofs.Source.Lines
import Brisk.Proofs.Token.Blanks
import Brisk.Proofs.Token.Seam

/-!
# What is spelt is scanned

The converse of `Scan.token_sound`, for tokens that stand apart: where the characters of a spelling
are followed by a blank character or by the end of the source (`Separated`), the scan that starts
with them finds the token that they spell (`Scan.token_of_spelling`). A blank character goes on with
no word and no number, and it is no half of a symbol, so every loop of a scan stops in front of it.

A text that is written token by token, with blanks between any two, is therefore lexed to these
tokens (`Lexer.yields_written`, `Lexer.yields_text`). Each stands where its spelling starts.
Spellings hold no carriage return, so no line break reaches across the edge of one.
-/

namespace Brisk

namespace Scan

variable {limits : Limits} {edge : Edge} {start : Position} {c : Char} {cs : List Char}
  {rest rest' : List Placed} {t : Token}

/-- Looking at the next character finds a blank one, or the end. -/
theorem withNext_of_separated (h : Separated edge rest) : ∃ next,
    (∀ d, next = some d → Text.isBlank d = true) ∧
      ∀ go : Option Char → List Placed → Outcome Token,
        withNext edge rest go = go next rest := by
  cases h with
  | stop hfailure =>
    -- The source ends, without a failure.
    refine ⟨none, by simp, ?_⟩
    intro go
    rw [withNext_nil, hfailure]
  | @blank p rest c hp hc =>
    -- A blank is decodable, and what is shown of it is a blank as well.
    obtain ⟨d, hd⟩ : ∃ d, p.piece.raw? = some d := by
      cases hpiece : p.piece with
      | char c => exact ⟨c, rfl⟩
      | lineBreak style => exact ⟨style.first, rfl⟩
      | undecodable =>
        rw [hpiece] at hp
        exact absurd hp (by simp [Piece.char?])
    refine ⟨some d, ?_, ?_⟩
    · intro d' hd'
      obtain rfl := Option.some.inj hd'
      exact Piece.isBlank_raw? hp hc hd
    · intro go
      rw [withNext_cons, hd]

/-- A run takes the characters of its class, and stops in front of what is not in the class. -/
theorem run_of_spells {ofClass : Char → Bool} (hbreak : ofClass '\n' = false)
    (h : Spells rest cs rest') (hcs : ∀ d ∈ cs, ofClass d = true)
    (hstop : ∀ p more d, rest' = p :: more → p.piece = .char d → ofClass d = false) :
    run ofClass rest = (cs, rest') := by
  induction h with
  | nil rest =>
    -- The characters have been taken, and the next one is not of the class.
    cases rest with
    | nil => rfl
    | cons p more =>
      unfold run
      cases hp : p.piece with
      | char d => simp [hstop p more d rfl hp]
      | lineBreak | undecodable => rfl
  | @cons p rest rest' c cs hc _ ih =>
    have hclass : ofClass c = true := hcs c List.mem_cons_self
    -- A line feed is not of the class, so the piece is the character itself.
    have hne : c ≠ '\n' := by
      rintro rfl
      rw [hbreak] at hclass
      exact absurd hclass (by decide)
    have htail := ih (fun d hd => hcs d (List.mem_cons_of_mem c hd)) hstop
    unfold run
    rw [Piece.eq_char_of_char? hc hne]
    simp only [hclass, if_true, htail]

/-- A run stops in front of blanks if its class has none. -/
theorem run_of_separated {ofClass : Char → Bool} (hbreak : ofClass '\n' = false)
    (hblank : ∀ d, Text.isBlank d = true → ofClass d = false) (h : Spells rest cs rest')
    (hcs : ∀ d ∈ cs, ofClass d = true) (hsep : Separated edge rest') :
    run ofClass rest = (cs, rest') := by
  refine run_of_spells hbreak h hcs ?_
  rintro p more d rfl hp
  obtain _ | ⟨hc, hblank'⟩ := hsep
  rw [hp] at hc
  obtain rfl := Option.some.inj hc
  exact hblank _ hblank'

/-! ## Tokens -/

/-- A word that is written is scanned as such up to its end. -/
theorem word_of_spells (hlimit : cs = [] ∨ cs.length + 1 ≤ limits.identifier)
    (h : Spells rest cs rest') (hcs : ∀ d ∈ cs, continuesWord d = true)
    (hsep : Separated edge rest') : word limits edge start c rest =
      (.ok (.ofWord (String.ofList (c :: cs))), rest') := by
  have hrun : run continuesWord rest = (cs, rest') :=
    run_of_separated (by decide) (fun _ => Text.continuesWord_of_isBlank) h hcs hsep
  obtain ⟨next, -, hnext⟩ := withNext_of_separated hsep
  have hshort : ¬(cs ≠ [] ∧ limits.identifier < cs.length + 1) := by
    rintro ⟨hne, hlt⟩
    rcases hlimit with hnil | hle
    · exact hne hnil
    · omega
  unfold word
  simp only [hrun, if_neg hshort, hnext]

/-- An integer that is written is scanned as such. -/
theorem number_of_int {n : Int32} (hn : n.toInt = Integer.ofDigits (c :: cs))
    (h : Spells rest cs rest') (hcs : ∀ d ∈ cs, d.isDigit = true) (hsep : Separated edge rest') :
    number edge start c rest = (.ok (.int n), rest') := by
  have hrun : run Char.isDigit rest = (cs, rest') :=
    run_of_separated (by decide) (fun _ => Text.isDigit_of_isBlank) h hcs hsep
  obtain ⟨next, hblank, hnext⟩ := withNext_of_separated hsep
  have hpoint : next ≠ some '.' := fun hpoint => absurd (hblank '.' hpoint) (by decide)
  have hfits : Integer.ofInt? (Integer.ofDigits (c :: cs)) = some n := by
    have hmin := n.minValue_le_toInt
    have hmax := n.toInt_le
    unfold Integer.ofInt?
    rw [← hn, if_pos ⟨hmin, hmax⟩, Int32.ofInt_toInt]
  unfold number integer
  simp only [hrun, hnext, if_neg hpoint, hfits]

/-- A float that is written is scanned as such. -/
theorem number_of_float {ds fs : List Char} {x : Float} (hds : ∀ d ∈ ds, d.isDigit = true)
    (hfs : ∀ d ∈ fs, d.isDigit = true) (hc : c.isDigit = true)
    (hx : Decimal.read? (String.ofList (c :: ds ++ '.' :: fs)) = some x)
    (h : Spells rest (ds ++ '.' :: fs) rest') (hsep : Separated edge rest') :
    number edge start c rest = (.ok (.float x), rest') := by
  obtain ⟨mid, hwhole, hmid⟩ : ∃ mid, Spells rest ds mid ∧ Spells mid ('.' :: fs) rest' :=
    h.exists_of_append
  obtain _ | @⟨p, more, _, _, _, hp, hfraction⟩ := hmid
  have hpiece : p.piece = .char '.' := Piece.eq_char_of_char? hp (by decide)
  -- The point is no digit, so it ends the whole digits.
  have hrun : run Char.isDigit rest = (ds, p :: more) := by
    refine run_of_spells (by decide) hwhole hds ?_
    rintro p' more' d heq hd
    rw [← (List.cons.inj heq).1, hpiece] at hd
    rw [← Piece.char.inj hd]
    decide
  -- Behind the fraction there is a blank or the end.
  have hrun' : run Char.isDigit more = (fs, rest') :=
    run_of_separated (by decide) (fun _ => Text.isDigit_of_isBlank) hfraction hfs hsep
  obtain ⟨next, -, hnext⟩ := withNext_of_separated hsep
  have hdigits : ∀ d ∈ c :: ds, d.isDigit = true := by
    intro d hd
    rcases List.mem_cons.mp hd with rfl | hd
    · exact hc
    · exact hds d hd
  have hvalue : Decimal.ofDigits false (c :: ds) fs 0 = x := by
    rw [Decimal.read?_of_digits (List.cons_ne_nil c ds) hdigits hfs] at hx
    exact Option.some.inj hx
  have hraw : p.piece.raw? = some '.' := by rw [hpiece]; rfl
  unfold number
  simp only [hrun, withNext_cons, hraw, if_true, List.drop_one, List.tail_cons, hrun', hnext,
    hvalue]

/-- A string literal is read up to its quotation mark, whatever follows. -/
theorem string_of_spells {content : List Char} (h : Escaped cs content) (length : Nat)
    (behind : List Char) (hlimit : length + content.length ≤ limits.string)
    (hspells : Spells rest (cs ++ ['"']) rest') :
    string limits edge start length behind rest =
      (.ok (.str (String.ofList (behind.reverse ++ content))), rest') := by
  induction h generalizing length behind rest with
  | nil =>
    obtain _ | ⟨hc, hspells⟩ := hspells
    -- The closing quotation mark.
    cases hspells
    unfold string
    simp only [hc, if_true, List.append_nil]
  | @plain c cs content hquote hescape _ ih =>
    -- A plain character is taken as it is.
    obtain _ | ⟨hc, hspells⟩ := hspells
    rw [List.length_cons] at hlimit
    have htail := ih (length + 1) (c :: behind) (by omega) hspells
    have hbound : ¬limits.string < length + 1 := by omega
    unfold string
    simp only [hc, if_neg hquote, if_neg hescape, if_neg hbound, htail, List.reverse_cons,
      List.append_assoc, List.singleton_append]
  | @escape e d cs content he _ ih =>
    -- An escape is two characters, and stands for one.
    obtain _ | ⟨hc, _ | ⟨hc', hspells⟩⟩ := hspells
    rw [List.length_cons] at hlimit
    have htail := ih (length + 1) (d :: behind) (by omega) hspells
    have hbound : ¬limits.string < length + 1 := by omega
    have hquote : ¬('\\' = '"') := by decide
    rw [string.eq_def]
    simp only [hc, hc', he, if_neg hquote, if_true, if_neg hbound, htail, List.reverse_cons,
      List.append_assoc, List.singleton_append]

/-- A symbol that is written is scanned as such, since what stands behind it is separated from
it. -/
theorem symbol_of_spells {s : Symbol} (hs : s.text.toList = c :: cs) (h : Spells rest cs rest')
    (hsep : Separated edge rest') : symbol edge start c rest = (.ok (.symbol s), rest') := by
  rcases s.text_eq with ⟨c', htext, hsingle⟩ | ⟨c', d, htext, hpair, hneeds⟩
  · -- A symbol of one character.
    rw [hs] at htext
    obtain ⟨rfl, rfl⟩ := List.cons.inj htext
    cases h
    have hone : single start c = .ok (.symbol s) := by
      unfold single
      rw [hsingle]
    unfold symbol
    split
    · -- What is looked at is blank, so it makes no other symbol.
      obtain ⟨next, hblank, hnext⟩ := withNext_of_separated hsep
      have hnone : next.bind (Symbol.pair? c) = none := by
        cases next with
        | none => rfl
        | some d => exact Text.pair?_of_isBlank (hblank d rfl)
      simp only [hnext, hnone, hone]
    · rw [hone]
  · rw [hs] at htext
    -- A symbol of two characters, of which the second is looked at.
    obtain ⟨rfl, rfl⟩ := List.cons.inj htext
    obtain _ | @⟨p, more, _, _, _, hp, hmore⟩ := h
    cases hmore
    obtain ⟨hfeed, hreturn⟩ := pair?_ne_some_of_lineBreak hpair
    have hraw : p.piece.raw? = some d := (Piece.raw?_eq_some_iff hfeed hreturn).mpr hp
    unfold symbol
    simp only [if_pos hneeds, withNext_cons, hraw, Option.bind_some, hpair, List.drop_one,
      List.tail_cons]

end Scan

/-- The token of a keyword's text is the keyword. -/
theorem Token.ofWord_text (k : Keyword) : ofWord k.text = .keyword k := by
  cases k with
  | truth b => cases b <;> decide
  | type t => cases t <;> decide
  | letKey | mutKey | fnKey | whileKey | ifKey | elseKey | returnKey => decide

/-- The token of a word that is no keyword is the name. -/
theorem Token.ofWord_of_ne {word : String} (h : ∀ k : Keyword, k.text ≠ word) :
    ofWord word = .identifier word := by
  have hnone : Keyword.ofString? word = none := by
    refine List.find?_eq_none.mpr ?_
    intro k _
    simpa using h k
  unfold ofWord
  rw [hnone]

namespace Scan

variable {limits : Limits} {edge : Edge} {start : Position} {c : Char} {cs : List Char}
  {rest rest' : List Placed} {t : Token}

/-- A token is found where it is spelt, if what follows separates it. -/
theorem token_of_spelling (h : Token.Spelling (c :: cs) t) (hlimit : t.Within limits (c :: cs))
    (hspells : Spells rest cs rest') (hsep : Separated edge rest') :
    token limits edge start c rest = (.ok t, rest') := by
  -- A word is looked for behind a quotation mark and a digit, and a symbol behind those.
  have hword : startsWord c = true → (∀ d ∈ cs, continuesWord d = true) →
      (c :: cs).length ≤ limits.identifier → token limits edge start c rest =
        (.ok (.ofWord (String.ofList (c :: cs))), rest') := by
    intro hc hcs hle
    have hquote : c ≠ '"' := by
      rintro rfl
      exact absurd hc (by decide)
    have hdigit : ¬c.isDigit = true := by
      intro hd
      rw [startsWord_of_isDigit hd] at hc
      exact absurd hc (by decide)
    unfold token
    rw [if_neg hquote, if_neg hdigit, if_pos hc]
    exact word_of_spells (.inr hle) hspells hcs hsep
  -- A number starts with a digit, which no quotation mark is.
  have hnumber : c.isDigit = true →
      token limits edge start c rest = number edge start c rest := by
    intro hc
    have hquote : c ≠ '"' := by
      rintro rfl
      exact absurd hc (by decide)
    unfold token
    rw [if_neg hquote, if_pos hc]
  generalize htext : c :: cs = text at h
  cases h with
  | symbol s =>
    obtain ⟨c', cs', heq, hquote, hdigit, hstart⟩ := s.text_first
    rw [heq] at htext
    obtain ⟨rfl, rfl⟩ := List.cons.inj htext
    unfold token
    rw [if_neg hquote, if_neg (by simp [hdigit]), if_neg (by simp [hstart])]
    exact symbol_of_spells heq hspells hsep
  | keyword k =>
    obtain ⟨c', cs', heq, hstart, hrest⟩ := k.text_word
    rw [heq] at htext
    obtain ⟨rfl, rfl⟩ := List.cons.inj htext
    rw [hword hstart hrest hlimit, ← heq, String.ofList_toList, Token.ofWord_text]
  | identifier hstart hrest hkeyword =>
    obtain ⟨rfl, rfl⟩ := List.cons.inj htext
    rw [hword hstart hrest hlimit, Token.ofWord_of_ne hkeyword]
  | int hne hds hn =>
    subst htext
    rw [hnumber (hds c List.mem_cons_self)]
    exact number_of_int hn hspells (fun d hd => hds d (List.mem_cons_of_mem c hd)) hsep
  | @float ds fs x hne hds hfs hx =>
    obtain ⟨c', ds, rfl⟩ := List.exists_cons_of_ne_nil hne
    obtain ⟨rfl, rfl⟩ := List.cons.inj htext
    have hc := hds c List.mem_cons_self
    rw [hnumber hc]
    exact number_of_float (fun d hd => hds d (List.mem_cons_of_mem c hd)) hfs hc hx hspells hsep
  | @str cs' content hescaped =>
    obtain ⟨rfl, rfl⟩ := List.cons.inj htext
    have hle : (String.ofList content).length ≤ limits.string := hlimit
    rw [String.length_ofList] at hle
    unfold token
    rw [if_pos rfl]
    exact string_of_spells hescaped 0 [] (by omega) hspells

/-! ## Scans -/

/-- Blanks are skipped. -/
theorem skip_of_blanks {blanks : List Char} {mid : List Placed} (h : Spells rest blanks mid)
    (hblanks : ∀ c ∈ blanks, Text.isBlank c = true) :
    skip limits edge rest = skip limits edge mid := by
  induction h with
  | nil => rfl
  | @cons p rest mid c cs hc _ ih =>
    rw [← ih fun d hd => hblanks d (List.mem_cons_of_mem c hd)]
    rw [skip]
    cases hp : p.piece with
    | char d =>
      rw [hp] at hc
      obtain rfl : d = c := Option.some.inj hc
      simp only [hblanks d List.mem_cons_self, if_true]
    | lineBreak style => rfl
    | undecodable =>
      rw [hp] at hc
      exact absurd hc (by simp [Piece.char?])

/-- Skipping stops at what spells a token, which opens no comment. -/
theorem skip_of_spelling {p : Placed} (hp : p.piece.char? = some c)
    (h : Token.Spelling (c :: cs) t) (hspells : Spells rest cs rest')
    (hsep : Separated edge rest') :
    skip limits edge (p :: rest) = (.ok (some (c, p.position)), rest) := by
  have hblank := Text.isBlank_of_spelling h
  have hne : c ≠ '\n' := by
    rintro rfl
    exact absurd hblank (by decide)
  rw [skip, Piece.eq_char_of_char? hp hne]
  simp only [hblank, Bool.false_eq_true, if_false]
  split
  next hslash =>
    -- A slash is a token of its own, so a blank or the end follows it.
    subst hslash
    have htext : Symbol.slash.text.toList = ['/'] := rfl
    obtain ⟨s, hs⟩ := h.of_symbol htext
    have hnil : cs = [] := by
      cases s <;> first
        | exact absurd (List.cons.inj hs).1 (by decide)
        | exact (List.cons.inj hs).2.symm
    subst hnil
    cases hspells
    cases hsep with
    | stop => rfl
    | @blank q more d hq hd =>
      have hpiece : ∀ e : Char, 32 < e.toNat ∧ e.toNat ≤ 127 → ¬q.piece = .char e := by
        intro e he heq
        rw [heq] at hq
        obtain rfl : e = d := Option.some.inj hq
        exact Text.ne_of_isBlank hd he rfl
      simp only [if_neg (hpiece '/' (by decide)), if_neg (hpiece '*' (by decide))]
  · rfl

/-- Behind blanks, a scan finds the token that is spelt there. -/
theorem lexeme_of_spelling {blanks text : List Char} {mid : List Placed} {stop q : Position}
    (hblanks : ∀ c ∈ blanks, Text.isBlank c = true) (hskip : Spells rest blanks mid)
    (hlaid : Laid stop q mid) (h : Token.Spelling text t) (hlimit : t.Within limits text)
    (hspells : Spells mid text rest') (hsep : Separated edge rest') :
    lexeme limits edge rest = (.ok ⟨t, q⟩, rest') := by
  obtain ⟨c, cs, rfl, -⟩ := h.shape
  obtain _ | @⟨p, more, _, _, _, hp, hmore⟩ := hspells
  obtain ⟨rfl, -, -⟩ := hlaid
  unfold lexeme
  rw [skip_of_blanks hskip hblanks, skip_of_spelling hp h hmore hsep]
  simp only [token_of_spelling h hlimit hmore hsep]
  rfl

/-- Behind the last blanks, a scan finds the end. -/
theorem lexeme_of_blanks {blanks : List Char} (hfailure : edge.failure = none)
    (hblanks : ∀ c ∈ blanks, Text.isBlank c = true) (h : Spells rest blanks []) :
    lexeme limits edge rest = (.ok ⟨.endOfFile, edge.position⟩, []) := by
  unfold lexeme
  rw [skip_of_blanks h hblanks, skip]
  unfold atEdge
  simp only [hfailure]

end Scan

/-! ## Carriage returns -/

/-- Symbols have no carriage returns. -/
theorem Symbol.return_not_mem (s : Symbol) : '\r' ∉ s.text.toList := by cases s <;> decide

/-- Keywords have no carriage returns. -/
theorem Keyword.return_not_mem (k : Keyword) : '\r' ∉ k.text.toList := by
  have hkeywords : ∀ k ∈ all, '\r' ∉ k.text.toList := by decide
  exact hkeywords k k.mem_all

/-- No carriage return is in a word. -/
theorem Scan.return_not_mem_word {c : Char} {cs : List Char} (hstart : startsWord c = true)
    (hrest : ∀ d ∈ cs, continuesWord d = true) : '\r' ∉ c :: cs := by
  intro hmem
  rcases List.mem_cons.mp hmem with rfl | hmem
  · exact absurd hstart (by decide)
  · exact absurd (hrest _ hmem) (by decide)

/-- Digits are no carriage returns. -/
theorem Scan.return_not_mem_digits {ds : List Char} (h : ∀ d ∈ ds, d.isDigit = true) :
    '\r' ∉ ds :=
  fun hmem => absurd (h _ hmem) (by decide)

/-! ## Written tokens -/

/-- A token as it is written in a source: its spelling, and the blanks behind it. -/
structure Written where
  text : List Char
  token : Token
  blanks : List Char

namespace Written

/-- How written tokens stand in the source one after another. -/
def chars (items : List Written) : List Char := items.flatMap fun item => item.text ++ item.blanks

/-- The lexemes that written tokens are behind the text `before`: the tokens, each where its
spelling starts, and the end of the file. -/
def lexemes (before : List Char) : List Written → List Lexeme
  | [] => [⟨.endOfFile, .ofText (Text.normalize before)⟩]
  | item :: items => ⟨item.token, .ofText (Text.normalize before)⟩ ::
      lexemes (before ++ item.text ++ item.blanks) items

/-- The tokens that are written are scanned in their order, and then the end of the source. -/
@[simp]
theorem map_token_lexemes (before : List Char) (items : List Written) :
    (lexemes before items).map (·.token) = items.map (·.token) ++ [.endOfFile] := by
  induction items generalizing before with
  | nil => rfl
  | cons item items ih => exact congrArg (item.token :: ·) (ih _)

/-- Whether a token is written by one of its spellings, in a length that the limits allow, and
nothing but blanks is behind it. -/
structure Fits (limits : Limits) (item : Written) : Prop where
  spelling : item.token.Spelling item.text
  within : item.token.Within limits item.text
  noReturn : '\r' ∉ item.text
  blank : ∀ c ∈ item.blanks, Text.isBlank c = true

/-- Whether blanks stand between any two of the tokens. -/
def Apart : List Written → Prop
  | [] | [_] => True
  | item :: items => item.blanks ≠ [] ∧ Apart items

/-- Of tokens that stand apart, those behind the first one do. -/
theorem Apart.tail {item : Written} {items : List Written} (h : Apart (item :: items)) :
    Apart items := by
  cases items with
  | nil => trivial
  | cons => exact h.2

/-- Behind a token there are blanks, or nothing at all. -/
theorem isBlank_head? {limits : Limits} {item : Written} {items : List Written}
    (hfits : item.Fits limits) (hapart : Apart (item :: items)) (c : Char)
    (hc : (Text.normalize (item.blanks ++ chars items)).head? = some c) :
    Text.isBlank c = true := by
  cases hblanks : item.blanks with
  -- Nothing stands behind the last token, and a blank behind any other.
  | nil =>
    cases items with
    | nil =>
      rw [hblanks] at hc
      exact absurd hc (by simp [chars, Text.normalize])
    | cons next items => exact absurd hblanks hapart.1
  | cons d ds =>
    -- Normalised blanks are blanks.
    rw [hblanks, List.cons_append, Text.head?_normalize] at hc
    rw [← Option.some.inj hc]
    split
    · decide
    · refine hfits.blank d ?_
      rw [hblanks]
      exact List.mem_cons_self

/-- A spelling starts with no line feed. -/
theorem head?_ne_lineFeed {limits : Limits} {item : Written} (h : item.Fits limits)
    (more : List Char) : (item.text ++ more).head? ≠ some '\n' := by
  obtain ⟨c, cs, htext, -⟩ := h.spelling.shape
  have hblank := h.spelling
  rw [htext] at hblank ⊢
  intro hc
  rw [Option.some.inj hc] at hblank
  exact absurd (Text.isBlank_of_spelling hblank) (by decide)

/-- Line breaks in front of a token and behind it are not changed by it. -/
theorem normalize_append {limits : Limits} {item : Written} (h : item.Fits limits)
    (before more : List Char) : Text.normalize (before ++ (item.text ++ more)) =
      Text.normalize before ++ (item.text ++ Text.normalize more) := by
  rw [Text.normalize_append (head?_ne_lineFeed h more),
    Text.normalize_append_of_not_mem h.noReturn]

end Written

/-- A lexer gives written tokens, each where its spelling starts, if they stand apart. The text
`lead` is the blanks in front of the first of them, and `consumed` is what stands before. -/
theorem Lexer.yields_written {limits : Limits} {edge : Edge} (hfailure : edge.failure = none)
    {items : List Written} (hfits : ∀ item ∈ items, item.Fits limits)
    (hapart : Written.Apart items) {rest : List Placed} {consumed lead : List Char}
    (hlead : ∀ c ∈ lead, Text.isBlank c = true)
    (hconsumed : Text.normalize (consumed ++ lead) =
      Text.normalize consumed ++ Text.normalize lead)
    (hlaid : Laid edge.position (.ofText (Text.normalize consumed)) rest)
    (hspells : Spells rest (Text.normalize (lead ++ Written.chars items)) []) :
    Yields ⟨limits, ⟨rest, edge⟩, false⟩ (Written.lexemes (consumed ++ lead) items) := by
  -- By induction on the tokens: what is consumed grows by the blanks and the token of one scan.
  induction items generalizing rest consumed lead with
  | nil =>
    rw [Written.chars, List.flatMap_nil, List.append_nil] at hspells
    -- The last blanks end where the source does.
    have hstop : Position.ofText (Text.normalize (consumed ++ lead)) = edge.position := by
      rw [hconsumed, Position.ofText_append]
      exact hlaid.of_spells hspells
    have hscan : Scan.lexeme limits edge rest = _ :=
      Scan.lexeme_of_blanks hfailure (Text.isBlank_normalize hlead) hspells
    rw [Written.lexemes, hstop]
    exact yields_iff.mpr ⟨_, ⟨[], edge⟩, Source.lexeme_eq_ok_iff.mpr ⟨hscan, rfl⟩, .inl ⟨rfl, rfl⟩⟩
  | cons item items ih =>
    have hitem := hfits item List.mem_cons_self
    -- The blanks, the token and what is behind it are spelt one after the other.
    have hchars : Text.normalize (lead ++ Written.chars (item :: items)) =
        Text.normalize lead ++
          (item.text ++ Text.normalize (item.blanks ++ Written.chars items)) := by
      rw [← Written.normalize_append hitem]
      simp only [Written.chars, List.flatMap_cons, List.append_assoc]
    rw [hchars] at hspells
    obtain ⟨mid, hskip, hspells⟩ := hspells.exists_of_append
    obtain ⟨rest', htext, hrest⟩ := hspells.exists_of_append
    have hmid := hlaid.of_spells hskip
    rw [← Position.ofText_append, ← hconsumed] at hmid
    -- What is behind the token is a blank or the end.
    have hsep : Separated edge rest' :=
      separated_of_spells hfailure hrest (Written.isBlank_head? hitem hapart)
    have hscan := Scan.lexeme_of_spelling (Text.isBlank_normalize hlead) hskip hmid hitem.spelling
      hitem.within htext hsep
    have hbefore : Text.normalize (consumed ++ lead ++ item.text) =
        Text.normalize (consumed ++ lead) ++ item.text := by
      have h := Written.normalize_append hitem (consumed ++ lead) []
      rwa [List.append_nil, Text.normalize, List.append_nil] at h
    have hbehind : Text.normalize (consumed ++ lead ++ item.text ++ item.blanks) =
        Text.normalize (consumed ++ lead ++ item.text) ++ Text.normalize item.blanks := by
      rw [hbefore, List.append_assoc (consumed ++ lead), Written.normalize_append hitem,
        List.append_assoc]
    -- The text up to the token ends where the token does.
    have hlaid' : Laid edge.position (.ofText (Text.normalize (consumed ++ lead ++ item.text)))
        rest' := by
      rw [hbefore, Position.ofText_append]
      exact hmid.of_spells htext
    have hrest' := ih (fun item hi => hfits item (List.mem_cons_of_mem _ hi)) hapart.tail
      hitem.blank hbehind hlaid' hrest
    rw [Written.lexemes]
    exact yields_iff.mpr ⟨_, ⟨rest', edge⟩, Source.lexeme_eq_ok_iff.mpr ⟨hscan, rfl⟩,
      .inr ⟨hitem.spelling.ne_endOfFile, _, rfl, hrest'⟩⟩

/-- A text of written tokens that stand apart is lexed to these tokens, as a source of bytes. -/
theorem Lexer.yields_text {limits : Limits} {s : String} {lead : List Char} {items : List Written}
    (hs : s.toList = lead ++ Written.chars items) (hlead : ∀ c ∈ lead, Text.isBlank c = true)
    (hfits : ∀ item ∈ items, item.Fits limits) (hapart : Written.Apart items) :
    Yields ⟨limits, .ofBytes (Text.bytes s) .endOfFile, false⟩ (Written.lexemes lead items) := by
  have hlaid := Source.laid_place (Source.piecesOfChars_ne_lineFeed s.toList) .start
  have hspells : Spells (Source.ofString s).ahead (Text.normalize (lead ++ Written.chars items))
      [] := by
    rw [← hs]
    exact Source.spells_place _ .start
  have hyields : Yields ⟨limits, Source.ofString s, false⟩ (Written.lexemes ([] ++ lead) items) :=
    yields_written rfl hfits hapart hlead rfl hlaid hspells
  rw [Source.ofBytes_eq_ofString (Text.ofBytes?_bytes s)]
  exact hyields

end Brisk
