import Brisk.Proofs.Number.Digits
import Brisk.Proofs.Source.Spells
import Brisk.Proofs.Token.Spelling

/-!
# What is scanned is what is spelt

A token that has been scanned was spelt by the pieces that were consumed for it, and no longer
spelling starts in the same place (`Scan.token_sound`). There is a lemma for each kind of token;
each of them takes the characters that were consumed from the loop of its kind, and the reason why
the loop ended from the character that was looked at last.

Looking at the next character sees line breaks as they stand in the source, and consuming it does
not. The difference does not matter for the characters that scanning asks for (`withNext_ok`).
-/

namespace Brisk

/-- Apart from line breaks, characters are read as they stand in the source. -/
theorem Piece.raw?_eq_some_iff {piece : Piece} {c : Char} (h : c ≠ '\n') (h' : c ≠ '\r') :
    piece.raw? = some c ↔ piece.char? = some c := by
  cases piece with
  | lineBreak style =>
    cases style <;> simp [raw?, char?, LineBreak.first, h.symm, h'.symm]
  | char d => exact Iff.rfl
  | undecodable => exact Iff.rfl

/-- The next character is the one that the first piece is read as. -/
theorem spells_next_iff {rest : List Placed} {c : Char} :
    Spells rest [c] (rest.drop 1) ↔ ∃ p more, rest = p :: more ∧ p.piece.char? = some c := by
  constructor
  · intro h
    obtain _ | @⟨p, more, _, _, _, hc, -⟩ := h
    exact ⟨p, more, rfl, hc⟩
  · intro h
    obtain ⟨p, more, rfl, hc⟩ := h
    exact .single hc

/-- The first character of what is left is the next one. -/
theorem Spells.head?_eq_some_iff {rest : List Placed} {after : List Char} {c : Char}
    (h : Spells rest after []) : after.head? = some c ↔ Spells rest [c] (rest.drop 1) := by
  rw [spells_next_iff]
  cases h with
  | nil => simp
  | @cons p more _ d cs hd _ =>
    constructor
    · intro hc
      obtain rfl := Option.some.inj hc
      exact ⟨p, more, rfl, hd⟩
    · intro hc
      obtain ⟨p', more', heq, hc⟩ := hc
      rw [(List.cons.inj heq).1, hc] at hd
      exact hd.symm

namespace Scan

variable {limits : Limits} {edge : Edge} {start : Position} {c : Char} {rest rest' : List Placed}
  {t : Token}

/-- An error is no result. -/
theorem error_ne_ok {α : Type} {e : LexError} {a : α} :
    ((.error e, rest) : Outcome α) ≠ (.ok a, rest') := by
  simp

/-- Outcomes are the same if results and rests are. -/
theorem ok_eq_ok_iff {α : Type} {a b : α} :
    ((.ok a, rest) : Outcome α) = (.ok b, rest') ↔ a = b ∧ rest = rest' := by
  simp

/-- At the edge of the source, a scan gives what is there, if reading has not failed. -/
theorem atEdge_eq_ok_iff {α : Type} {atEnd : Except LexError α} {a : α} :
    atEdge edge atEnd = (.ok a, rest') ↔ edge.failure = none ∧ atEnd = .ok a ∧ rest' = [] := by
  unfold atEdge
  cases edge.failure with
  | none =>
    rw [Prod.mk.injEq]
    constructor
    · intro h
      exact ⟨rfl, h.1, h.2.symm⟩
    · intro h
      exact ⟨h.2.1, h.2.2.symm⟩
  | some cause => simp

/-- What goes on after looking at the next character knows which one it is, if it breaks no line. -/
theorem withNext_ok {α : Type} {go : Option Char → List Placed → Outcome α} {a : α}
    (h : withNext edge rest go = (.ok a, rest')) :
    ∃ next, go next rest = (.ok a, rest') ∧
      ∀ d, d ≠ '\n' → d ≠ '\r' → (next = some d ↔ Spells rest [d] (rest.drop 1)) := by
  unfold withNext Edge.peek at h
  cases rest with
  | nil =>
    -- Nothing is ahead, so what is seen is the edge.
    cases hclose : edge.close (none : Option Char) with
    | error e =>
      rw [hclose] at h
      exact absurd h error_ne_ok
    | ok next =>
      rw [hclose] at h
      -- At the edge there is no next character, as there is no next piece.
      have hnone : next = none := by
        unfold Edge.close at hclose
        split at hclose
        · exact (Except.ok.inj hclose).symm
        · exact absurd hclose (by simp)
      refine ⟨next, h, ?_⟩
      intro d _ _
      rw [hnone, spells_next_iff]
      simp
  | cons p more =>
    -- What is seen of the piece ahead is its first character, which is the piece unless it breaks a
    -- line.
    cases hraw : p.piece.raw? with
    | none =>
      simp only [hraw] at h
      exact absurd h error_ne_ok
    | some next =>
      simp only [hraw] at h
      refine ⟨some next, h, ?_⟩
      intro d hd hd'
      rw [← hraw, Piece.raw?_eq_some_iff hd hd', spells_next_iff]
      constructor
      · intro hc
        exact ⟨p, more, rfl, hc⟩
      · intro hc
        obtain ⟨p', more', heq, hc⟩ := hc
        rw [(List.cons.inj heq).1]
        exact hc

/-- A run takes characters of its class, up to one that is not. -/
theorem run_spells (ofClass : Char → Bool) (hbreak : ofClass '\n' = false) (rest : List Placed) :
    Spells rest (run ofClass rest).1 (run ofClass rest).2 ∧
      (∀ d ∈ (run ofClass rest).1, ofClass d = true) ∧
      ∀ d, Spells (run ofClass rest).2 [d] ((run ofClass rest).2.drop 1) → ofClass d = false := by
  induction rest with
  | nil =>
    refine ⟨.nil [], by simp [run], ?_⟩
    intro d hd
    obtain ⟨p, more, heq, -⟩ := spells_next_iff.mp hd
    exact absurd heq (by simp [run])
  | cons p rest ih =>
    -- A run that takes nothing stops in front of `p`.
    have hstop : (∀ d, p.piece.char? = some d → ofClass d = false) →
        Spells (p :: rest) [] (p :: rest) ∧ (∀ d ∈ ([] : List Char), ofClass d = true) ∧
          ∀ d, Spells (p :: rest) [d] rest → ofClass d = false := by
      intro hp
      refine ⟨.nil _, by simp, ?_⟩
      intro d hd
      obtain ⟨p', more, heq, hd⟩ := spells_next_iff.mp hd
      rw [← (List.cons.inj heq).1] at hd
      exact hp d hd
    unfold run
    cases hp : p.piece with
    -- A character of the class goes on with the run.
    | char c =>
      simp only
      by_cases hc : ofClass c = true
      · rw [if_pos hc]
        refine ⟨.cons (by rw [hp]; rfl) ih.1, ?_, ih.2.2⟩
        intro d hd
        rcases List.mem_cons.mp hd with rfl | hd
        · exact hc
        · exact ih.2.1 d hd
      · rw [if_neg hc]
        apply hstop
        intro d hd
        rw [hp] at hd
        rw [← Option.some.inj hd]
        simpa using hc
    -- A line break is no character of the class.
    | lineBreak style =>
      apply hstop
      intro d hd
      rw [hp] at hd
      rw [← Option.some.inj hd]
      exact hbreak
    -- What cannot be decoded is no character at all.
    | undecodable =>
      apply hstop
      intro d hd
      rw [hp] at hd
      exact absurd hd (by simp [Piece.char?])

end Scan

/-- Whether a token keeps the limit on its length when it is written as `text`. -/
def Token.Within (limits : Limits) (text : List Char) : Token → Prop
  | .identifier _ | .keyword _ => text.length ≤ limits.identifier
  | .str s => s.length ≤ limits.string
  | .endOfFile | .symbol _ | .int _ | .float _ => True

/-- A token has been scanned from its first character `c` and the pieces behind it: the pieces that
were consumed spell `text`, and that is the longest spelling in its place. -/
structure Scanned (limits : Limits) (c : Char) (text : List Char) (rest : List Placed) (t : Token)
    (rest' : List Placed) : Prop where
  spells : Spells rest text rest'
  spelling : t.Spelling (c :: text)
  longest : ∀ after, Spells rest' after [] → Longest (c :: text) after
  /-- The bound of an identifier is not looked at before its second character. -/
  within : 1 ≤ limits.identifier → t.Within limits (c :: text)

/-! ## Words -/

/-- Every keyword is in the table. -/
theorem Keyword.mem_all (k : Keyword) : k ∈ all := by
  cases k with
  | truth b => cases b <;> decide
  | type t => cases t <;> decide
  | letKey | mutKey | fnKey | whileKey | ifKey | elseKey | returnKey => decide

/-- A word is the keyword that is written like it, or else a name. -/
theorem Token.spelling_ofWord {c : Char} {cs : List Char} (hstart : Scan.startsWord c = true)
    (hrest : ∀ d ∈ cs, Scan.continuesWord d = true) :
    Spelling (c :: cs) (ofWord (String.ofList (c :: cs))) := by
  unfold ofWord
  cases hk : Keyword.ofString? (String.ofList (c :: cs)) with
  -- The word is the text of a keyword.
  | some k =>
    have htext : k.text = String.ofList (c :: cs) := by simpa using List.find?_some hk
    have hspelling := Spelling.keyword k
    rw [htext, String.toList_ofList] at hspelling
    exact hspelling
  -- No keyword has the word as its text.
  | none =>
    refine .identifier hstart hrest ?_
    intro k htext
    have hne := List.find?_eq_none.mp hk k k.mem_all
    exact hne (by simp [htext])

/-- A word of an admitted length keeps the limits, be it a keyword or an identifier. -/
theorem Token.within_ofWord {limits : Limits} {word : String} {text : List Char}
    (h : text.length ≤ limits.identifier) : (ofWord word).Within limits text := by
  unfold ofWord
  split <;> exact h

namespace Scan

variable {limits : Limits} {edge : Edge} {start : Position} {c : Char} {rest rest' : List Placed}
  {t : Token}

/-- A word that is scanned consists of its first character and what continues it, up to a character
that does not. -/
theorem word_sound (hc : startsWord c = true)
    (h : word limits edge start c rest = (.ok t, rest')) :
    ∃ text, Scanned limits c text rest t rest' := by
  obtain ⟨hspells, hrest, hstop⟩ := run_spells continuesWord (by decide) rest
  unfold word at h
  simp only at h
  split at h
  · exact absurd h error_ne_ok
  next hlength =>
  obtain ⟨next, h, -⟩ := withNext_ok h
  obtain ⟨rfl, rfl⟩ := ok_eq_ok_iff.mp h
  refine ⟨_, hspells, Token.spelling_ofWord hc hrest, ?_, ?_⟩
  · -- The run has stopped at what does not go on with a word, so no longer spelling starts here.
    intro after hafter
    refine longest_word hc ?_
    intro d hd
    exact hstop d (hafter.head?_eq_some_iff.mp hd)
  · -- The bound is looked at with every character of the run, so a run of none is a case of its
    -- own.
    intro hlimit
    apply Token.within_ofWord
    rw [List.length_cons]
    by_cases hnil : (run continuesWord rest).1 = []
    · rw [hnil, List.length_nil]
      exact hlimit
    · exact Nat.le_of_not_lt fun hlt => hlength ⟨hnil, hlt⟩

/-! ## Numbers -/

/-- A number that is scanned consists of digits, with a point and further digits if it is a
float. -/
theorem number_sound (hc : c.isDigit = true) (h : number edge start c rest = (.ok t, rest')) :
    ∃ text, Scanned limits c text rest t rest' := by
  obtain ⟨hspells, hdigits, hstop⟩ := run_spells Char.isDigit (by decide) rest
  -- The digits are all of the first ones, up to what is no digit.
  have hds : ∀ d ∈ c :: (run Char.isDigit rest).1, d.isDigit = true := by
    intro d hd
    rcases List.mem_cons.mp hd with rfl | hd
    · exact hc
    · exact hdigits d hd
  unfold number at h
  simp only at h
  generalize run Char.isDigit rest = first at *
  obtain ⟨ds, more⟩ := first
  obtain ⟨next, h, hnext⟩ := withNext_ok h
  by_cases hpoint : next = some '.'
  · -- A point: the digits behind it are the fraction.
    rw [if_pos hpoint] at h
    obtain ⟨hspells', hfraction, hstop'⟩ := run_spells Char.isDigit (by decide) (more.drop 1)
    generalize run Char.isDigit (more.drop 1) = second at *
    obtain ⟨fs, behind⟩ := second
    obtain ⟨-, h, -⟩ := withNext_ok h
    obtain ⟨rfl, rfl⟩ := ok_eq_ok_iff.mp h
    have hspells₁ : Spells more ('.' :: fs) behind :=
      ((hnext '.' (by decide) (by decide)).mp hpoint).append hspells'
    refine ⟨ds ++ '.' :: fs, hspells.append hspells₁, ?_, ?_, fun _ => trivial⟩
    · exact .float (List.cons_ne_nil c ds) hds hfraction
        (Decimal.read?_of_digits (List.cons_ne_nil c ds) hds hfraction)
    · intro after hafter
      refine longest_float hds ?_
      intro d hd
      exact hstop' d (hafter.head?_eq_some_iff.mp hd)
  · -- No point: the digits are an integer, and the next character is why no longer number is there.
    rw [if_neg hpoint] at h
    obtain ⟨ht, rfl⟩ := Prod.mk.inj h
    unfold integer at ht
    split at ht
    next n hn =>
      obtain rfl := Except.ok.inj ht
      refine ⟨ds, hspells, ?_, ?_, fun _ => trivial⟩
      · exact .int (List.cons_ne_nil c ds) hds (Integer.toInt_of_ofInt? hn)
      · intro after hafter
        refine longest_int hds ?_ ?_
        · intro d hd
          exact hstop d (hafter.head?_eq_some_iff.mp hd)
        · intro hd
          have hspelt := hafter.head?_eq_some_iff.mp hd
          exact hpoint ((hnext '.' (by decide) (by decide)).mpr hspelt)
    · exact absurd ht (by simp)

/-! ## Strings -/

/-- The rest of a string literal is its escaped content and the quotation mark behind it. -/
theorem string_sound : ∀ (length : Nat) (content : List Char) (rest : List Placed),
    length = content.length → length ≤ limits.string →
    string limits edge start length content rest = (.ok t, rest') →
    ∃ cs more, Spells rest (cs ++ ['"']) rest' ∧ Escaped cs more ∧
      t = .str (String.ofList (content.reverse ++ more)) ∧
      content.length + more.length ≤ limits.string
  | length, content, [], _, _, h => by
    unfold string at h
    exact absurd (atEdge_eq_ok_iff.mp h).2.1 (by simp)
  | length, content, p :: rest, hlength, hlimit, h => by
    unfold string at h
    cases hp : p.piece.char? with
    | none =>
      simp only [hp] at h
      exact absurd h error_ne_ok
    | some c =>
      simp only [hp] at h
      -- A quotation mark ends the literal, a backslash escapes the next character, and every other
      -- character stands for itself.
      split at h
      · next hc =>
        obtain ⟨rfl, rfl⟩ := ok_eq_ok_iff.mp h
        refine ⟨[], [], .single (by rw [hp, hc]), .nil, by rw [List.append_nil], ?_⟩
        rw [List.length_nil]
        omega
      next hquote =>
      split at h
      · next hc =>
        -- A backslash: it is consumed together with the character behind it.
        match rest with
        | [] =>
          exact absurd (atEdge_eq_ok_iff.mp h).2.1 (by simp)
        | q :: more =>
          simp only at h
          split at h
          · exact absurd h error_ne_ok
          next e he =>
          split at h
          · exact absurd h error_ne_ok
          next d hd =>
          split at h
          · exact absurd h error_ne_ok
          next hbound =>
          obtain ⟨cs, ds, hspells, hescaped, ht, hle⟩ :=
            string_sound (length + 1) (d :: content) more (by simp [hlength]) (by omega) h
          refine ⟨'\\' :: e :: cs, d :: ds, ?_, .escape hd hescaped, ?_, ?_⟩
          · exact .cons (by rw [hp, hc]) (.cons he hspells)
          · rw [ht, List.reverse_cons, List.append_assoc, List.singleton_append]
          · rw [List.length_cons] at hle ⊢
            omega
      next hescape =>
      split at h
      · exact absurd h error_ne_ok
      next hbound =>
      obtain ⟨cs, ds, hspells, hescaped, ht, hle⟩ :=
        string_sound (length + 1) (c :: content) rest (by simp [hlength]) (by omega) h
      refine ⟨c :: cs, c :: ds, .cons hp hspells, .plain hquote hescape hescaped, ?_, ?_⟩
      · rw [ht, List.reverse_cons, List.append_assoc, List.singleton_append]
      · rw [List.length_cons] at hle ⊢
        omega

/-! ## Symbols -/

/-- Breaks of lines and carriage returns are no halves of symbols. -/
theorem pair?_ne_some_of_lineBreak {d : Char} {s : Symbol} (h : Symbol.pair? c d = some s) :
    d ≠ '\n' ∧ d ≠ '\r' := by
  unfold Symbol.pair? at h
  split at h <;> first | exact ⟨by decide, by decide⟩ | exact absurd h (by simp)

/-- A symbol of one character is scanned if the next one does not make another of it. -/
theorem single_sound (h : single start c = .ok t) (hspells : rest = rest')
    (hnext : Symbol.needsNext c = true → ∀ d, Spells rest [d] (rest.drop 1) →
      Symbol.pair? c d = none) : Scanned limits c [] rest t rest' := by
  subst hspells
  unfold single at h
  split at h
  -- The symbol of one character is the only one that can start here.
  next s hs =>
    obtain rfl := Except.ok.inj h
    have hspelling := Token.Spelling.symbol s
    rw [Symbol.text_of_single? hs] at hspelling
    refine ⟨.nil rest, hspelling, ?_, fun _ => trivial⟩
    intro after hafter
    refine longest_single hs ?_
    intro hneeds d hd
    exact hnext hneeds d (hafter.head?_eq_some_iff.mp hd)
  · exact absurd h (by simp)

/-- A symbol that is scanned is the longest one that starts there. -/
theorem symbol_sound (h : symbol edge start c rest = (.ok t, rest')) :
    ∃ text, Scanned limits c text rest t rest' := by
  unfold symbol at h
  split at h
  · obtain ⟨next, h, hnext⟩ := withNext_ok h
    split at h
    · next s hs =>
      obtain ⟨rfl, rfl⟩ := ok_eq_ok_iff.mp h
      obtain ⟨d, rfl, hpair⟩ := Option.bind_eq_some_iff.mp hs
      obtain ⟨hd, hd'⟩ := pair?_ne_some_of_lineBreak hpair
      have hspelling := Token.Spelling.symbol s
      rw [Symbol.text_of_pair? hpair] at hspelling
      refine ⟨[d], (hnext d hd hd').mp rfl, hspelling, ?_, fun _ => trivial⟩
      -- No symbol is longer than two characters, whatever stands behind them.
      intro after _
      exact longest_pair hpair
    · next hnone =>
      obtain ⟨ht, hrest⟩ := Prod.mk.inj h
      refine ⟨[], single_sound ht hrest ?_⟩
      -- The character behind was looked at, so it forms no pair with the first one.
      intro _ d hspelt
      cases hpair : Symbol.pair? c d with
      | none => rfl
      | some s =>
        obtain ⟨hd, hd'⟩ := pair?_ne_some_of_lineBreak hpair
        rw [(hnext d hd hd').mpr hspelt, Option.bind_some, hpair] at hnone
        exact absurd hnone (by simp)
  · next hneeds =>
    obtain ⟨ht, hrest⟩ := Prod.mk.inj h
    exact ⟨[], single_sound ht hrest fun h => absurd h hneeds⟩

/-- A token that has been scanned is what the pieces spell, and the longest token that they do. -/
theorem token_sound (h : token limits edge start c rest = (.ok t, rest')) :
    ∃ text, Scanned limits c text rest t rest' := by
  unfold token at h
  split at h
  · -- A string, up to its closing quotation mark.
    next hc =>
    obtain ⟨cs, content, hspells, hescaped, rfl, hle⟩ :=
      string_sound 0 [] rest rfl (Nat.zero_le _) h
    rw [hc]
    refine ⟨cs ++ ['"'], hspells, .str hescaped, fun _ _ => longest_str hescaped, ?_⟩
    intro _
    show (String.ofList content).length ≤ limits.string
    rw [String.length_ofList]
    rw [List.length_nil] at hle
    omega
  split at h
  · next hc => exact number_sound hc h
  split at h
  · next hc => exact word_sound hc h
  · exact symbol_sound h

end Scan

end Brisk
