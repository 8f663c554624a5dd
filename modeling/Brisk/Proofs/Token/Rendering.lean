import Brisk.Proofs.Token.Written

/-!
# Lexing undoes rendering

A token is rendered by its text, which is how messages and the listing of tokens show it. For most
tokens that text is one of their spellings (`Token.spelling_text`): symbols, keywords and names are
written as they are, an integer that has no sign by its digits, and a string between quotation marks
with escape sequences. Of these the lexer knows those that have a letter of their own, and neither
the one for the null character nor code points. A float is not rendered in a form that is read back
digit by digit, so it is left out.

A list of such tokens that is written with blanks between any two is lexed to the same list, and
every token stands where its text starts (`Lexer.yields_render`).
-/

namespace Brisk

/-- Whether the text of a token is read as that token within the limits. -/
def Token.Renderable (limits : Limits) : Token → Prop
  | .symbol _ => True
  | .keyword k => k.text.length ≤ limits.identifier
  | .identifier name => (Token.identifier name).Lexical ∧ name.length ≤ limits.identifier
  | .int n => 0 ≤ n
  | .str s => s.length ≤ limits.string ∧
    ∀ c ∈ s.toList, Text.quoteChar c ≠ ['\\', '0'] ∧ Text.quoteChar c ≠ Text.codePoint c
  | .float _ | .endOfFile => False

/-! ## Texts as spellings -/

/-- The digits of a number have its value. -/
theorem Integer.ofDigits_toDigits (n : Nat) : ofDigits (Nat.toDigits 10 n) = n :=
  Nat.ofDigitChars_toDigits (by decide) (by decide)

/-- An integer without a sign is written by its digits. -/
theorem Integer.toList_text {n : Int32} (h : 0 ≤ n) :
    (text n).toList = Nat.toDigits 10 n.toInt.toNat := by
  have hn : n.toInt = (n.toInt.toNat : Int) :=
    (Int.toNat_of_nonneg (Int32.le_iff_toInt_le.mp h)).symm
  have htext : toString n.toInt = n.toInt.toNat.repr := by
    rw [hn]
    rfl
  unfold text
  rw [htext, Nat.repr_eq_ofList_toDigits, String.toList_ofList]

/-- The escape sequence that has a letter is read as the character, but for the null character. -/
theorem Text.unescape?_of_escapeLetter? {c letter : Char} (h : escapeLetter? c = some letter)
    (hzero : letter ≠ '0') : Scan.unescape? letter = some c := by
  unfold escapeLetter? at h
  split at h
  · exact absurd (Option.some.inj h).symm hzero
  -- Every other letter stands for the character that it was found for.
  repeat' (split at h; next hc => rw [hc, ← Option.some.inj h]; rfl)
  exact absurd h (by simp)

/-- A character is written by an escape sequence that is read as it, or as itself. -/
theorem Text.quoteChar_cases {c : Char}
    (h : quoteChar c ≠ ['\\', '0'] ∧ quoteChar c ≠ codePoint c) :
    (∃ letter, quoteChar c = ['\\', letter] ∧ Scan.unescape? letter = some c) ∨
      (quoteChar c = [c] ∧ c ≠ '"' ∧ c ≠ '\\' ∧ c ≠ '\r') := by
  obtain ⟨hzero, hcode⟩ := h
  unfold quoteChar at *
  cases hletter : escapeLetter? c with
  | some letter =>
    simp only [hletter] at hzero ⊢
    exact .inl ⟨letter, rfl, unescape?_of_escapeLetter? hletter fun hc => hzero (by rw [hc])⟩
  | none =>
    simp only [hletter] at hcode ⊢
    -- The characters that mean something in a string literal all have a letter.
    have hne : ∀ d, escapeLetter? d ≠ none → c ≠ d := by
      rintro d hd rfl
      exact hd hletter
    split at hcode
    · rw [if_pos ‹_›]
      exact .inr ⟨rfl, hne _ (by decide), hne _ (by decide), hne _ (by decide)⟩
    · exact absurd rfl hcode

/-- Between quotation marks a string is written character by character. -/
theorem Text.escaped_quote {cs : List Char}
    (h : ∀ c ∈ cs, quoteChar c ≠ ['\\', '0'] ∧ quoteChar c ≠ codePoint c) :
    Escaped (cs.flatMap quoteChar) cs := by
  induction cs with
  | nil => exact .nil
  | cons c cs ih =>
    have htail := ih fun d hd => h d (List.mem_cons_of_mem c hd)
    rw [List.flatMap_cons]
    rcases quoteChar_cases (h c List.mem_cons_self) with
      ⟨letter, hquote, hread⟩ | ⟨hquote, hmark, hescape, -⟩
    · rw [hquote]
      exact .escape hread htail
    · rw [hquote]
      exact .plain hmark hescape htail

/-- A quoted string holds no carriage return: that is written by an escape sequence. -/
theorem Text.not_mem_quoteChar {c : Char}
    (h : quoteChar c ≠ ['\\', '0'] ∧ quoteChar c ≠ codePoint c) : '\r' ∉ quoteChar c := by
  rcases quoteChar_cases h with ⟨letter, hquote, hread⟩ | ⟨hquote, -, -, hne⟩
  · rw [hquote]
    have hletter : '\r' ≠ letter := by
      rintro rfl
      exact absurd hread (by simp [Scan.unescape?])
    simpa using hletter
  · rw [hquote]
    simpa using hne.symm

namespace Token

variable {limits : Limits} {t : Token}

/-- The text of a token is a spelling of it. -/
theorem spelling_text (h : t.Renderable limits) : t.Spelling t.text.toList := by
  cases t with
  | endOfFile | float => exact h.elim
  | symbol s => exact .symbol s
  | keyword k => exact .keyword k
  | identifier name =>
    -- A name that can be rendered is a word and no keyword.
    obtain ⟨⟨⟨c, cs, htext, hstart, hrest⟩, hkeyword⟩, -⟩ := h
    have hname : name = String.ofList (c :: cs) := by rw [← htext, String.ofList_toList]
    show Spelling name.toList (.identifier name)
    rw [htext, hname]
    rw [hname] at hkeyword
    exact .identifier hstart hrest hkeyword
  | int n =>
    -- An integer that is not negative is rendered with its decimal digits.
    have hdigits : ∀ d ∈ Nat.toDigits 10 n.toInt.toNat, d.isDigit = true :=
      fun d hd => Nat.isDigit_of_mem_toDigits (by decide) (by decide) hd
    show Spelling (Integer.text n).toList (.int n)
    rw [Integer.toList_text h]
    refine .int Nat.toDigits_ne_nil hdigits ?_
    rw [Integer.ofDigits_toDigits, Int.toNat_of_nonneg (Int32.le_iff_toInt_le.mp h)]
  | str s =>
    show Spelling (Text.quote s).toList (.str s)
    unfold Text.quote
    rw [String.toList_ofList]
    -- A rendered string is escaped between its quotation marks.
    have hspelling := Spelling.str (Text.escaped_quote h.2)
    rw [String.ofList_toList] at hspelling
    exact hspelling

/-- A token that can be rendered keeps the limits with its text. -/
theorem within_text (h : t.Renderable limits) : t.Within limits t.text.toList := by
  cases t with
  | endOfFile | symbol | int | float => trivial
  | keyword k => exact h
  | identifier name => exact h.2
  | str s => exact h.1

/-- No carriage return is in a text that spells a token. -/
theorem not_mem_text (h : t.Renderable limits) : '\r' ∉ t.text.toList := by
  cases t with
  | endOfFile | float => exact h.elim
  | symbol s => exact s.return_not_mem
  | keyword k => exact k.return_not_mem
  | identifier name =>
    obtain ⟨⟨⟨c, cs, htext, hstart, hrest⟩, -⟩, -⟩ := h
    show '\r' ∉ name.toList
    rw [htext]
    exact Scan.return_not_mem_word hstart hrest
  | int n =>
    show '\r' ∉ (Integer.text n).toList
    rw [Integer.toList_text h]
    exact Scan.return_not_mem_digits fun d hd =>
      Nat.isDigit_of_mem_toDigits (by decide) (by decide) hd
  | str s =>
    show '\r' ∉ (Text.quote s).toList
    unfold Text.quote
    rw [String.toList_ofList]
    -- No escape of a character has a carriage return.
    have hchars : '\r' ∉ s.toList.flatMap Text.quoteChar := by
      rw [List.mem_flatMap]
      rintro ⟨c, hc, hmem⟩
      exact Text.not_mem_quoteChar (h.2 c hc) hmem
    simpa using hchars

/-! ## Rendering -/

/-- Tokens with blanks behind them, written one after another behind some text. -/
def render (lead : String) (items : List (Token × String)) : String :=
  items.foldl (fun written (t, blanks) => written ++ t.text ++ blanks) lead

/-- A token with blanks behind it, as it is rendered. -/
def written (item : Token × String) : Written :=
  ⟨item.1.text.toList, item.1, item.2.toList⟩

/-- What is rendered are the texts of the tokens, with the blanks between them. -/
theorem toList_render (lead : String) (items : List (Token × String)) :
    (render lead items).toList = lead.toList ++ Written.chars (items.map written) := by
  induction items generalizing lead with
  | nil => exact (List.append_nil _).symm
  | cons item items ih =>
    show (render (lead ++ item.1.text ++ item.2) items).toList = _
    rw [ih, String.toList_append, String.toList_append]
    simp only [written, Written.chars, List.map_cons, List.flatMap_cons, List.append_assoc]

/-- What stands between any two tokens keeps them apart. -/
theorem apart_written {items : List (Token × String)}
    (h : ∀ item ∈ items.dropLast, item.2 ≠ "") : Written.Apart (items.map written) := by
  induction items with
  | nil => trivial
  | cons item items ih =>
    cases items with
    | nil => trivial
    | cons next items =>
      rw [List.dropLast_cons_cons] at h
      refine ⟨?_, ih fun item hitem => h item (List.mem_cons_of_mem _ hitem)⟩
      exact String.toList_eq_nil_iff.not.mpr (h item List.mem_cons_self)

end Token

/-- If tokens are written with their texts, with blanks between any two of them and perhaps in front
of the first and behind the last, then lexing gives these tokens, each at the place where its text
starts, and the end of the file. Blanks are any characters that separate tokens, breaks of lines in
all their styles included; the place is that behind the line breaks and characters in front. -/
theorem Lexer.yields_render {limits : Limits} {lead : String} {items : List (Token × String)}
    (hlead : ∀ c ∈ lead.toList, Text.isBlank c = true)
    (hitems : ∀ item ∈ items, item.1.Renderable limits ∧ ∀ c ∈ item.2.toList, Text.isBlank c = true)
    (hapart : ∀ item ∈ items.dropLast, item.2 ≠ "") :
    Yields ⟨limits, .ofBytes (Text.bytes (Token.render lead items)) .endOfFile, false⟩
      (Written.lexemes lead.toList (items.map Token.written)) := by
  have hfits : ∀ item ∈ items.map Token.written, Written.Fits limits item := by
    intro item hitem
    obtain ⟨⟨t, blanks⟩, hmem, rfl⟩ := List.mem_map.mp hitem
    obtain ⟨hrender, hblank⟩ := hitems _ hmem
    exact ⟨Token.spelling_text hrender, Token.within_text hrender, Token.not_mem_text hrender,
      hblank⟩
  exact yields_text (Token.toList_render lead items) hlead hfits (Token.apart_written hapart)

/-- Line breaks of all styles between a keyword, a name, a symbol, a string with escape sequences
and an integer. -/
theorem Lexer.yields_render_lineBreaks :
    Yields ⟨.standard, .ofBytes (Text.bytes (Token.render "\t" [(.keyword .letKey, " "),
      (.identifier "a", "\r\n"), (.symbol .arrow, "\r"), (.str "\"\n", "\n "), (.int 120, "")]))
      .endOfFile, false⟩ [⟨.keyword .letKey, ⟨1, 2⟩⟩, ⟨.identifier "a", ⟨1, 6⟩⟩,
      ⟨.symbol .arrow, ⟨2, 1⟩⟩, ⟨.str "\"\n", ⟨3, 1⟩⟩, ⟨.int 120, ⟨4, 2⟩⟩,
      ⟨.endOfFile, ⟨4, 5⟩⟩] := by
  -- The name is a word, and none of the keywords.
  have hname : (Token.identifier "a").Lexical := by
    have hkeywords : ∀ k ∈ Keyword.all, k.text ≠ "a" := by decide
    exact ⟨⟨'a', [], rfl, by decide, by simp⟩, fun k => hkeywords k k.mem_all⟩
  have hstring : ∀ c ∈ "\"\n".toList,
      Text.quoteChar c ≠ ['\\', '0'] ∧ Text.quoteChar c ≠ Text.codePoint c := by
    have hchars : "\"\n".toList = ['"', '\n'] := rfl
    simp only [hchars, List.forall_mem_cons, List.not_mem_nil, false_implies, implies_true,
      and_true]
    decide +kernel
  refine yields_render (List.all_eq_true.mp (by decide)) ?_ (by decide)
  -- The tokens are rendered one by one.
  intro item hitem
  simp only [List.mem_cons, List.not_mem_nil, or_false] at hitem
  rcases hitem with rfl | rfl | rfl | rfl | rfl
  · exact ⟨(by decide : "let".length ≤ 1200), List.all_eq_true.mp (by decide)⟩
  · exact ⟨⟨hname, by decide +kernel⟩, List.all_eq_true.mp (by decide)⟩
  · exact ⟨trivial, List.all_eq_true.mp (by decide)⟩
  · exact ⟨⟨by decide +kernel, hstring⟩, List.all_eq_true.mp (by decide)⟩
  · exact ⟨(by decide : (0 : Int32) ≤ 120), List.all_eq_true.mp (by decide)⟩

end Brisk
