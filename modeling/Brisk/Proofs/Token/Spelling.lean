import Brisk.Token.Scan

/-!
# How tokens are spelt

`Token.Spelling text t` says that the characters `text` are a way to write the token `t`. It is a
relation between texts and tokens and knows of no scanning: symbols and keywords have one spelling,
the same integer has one for every number of leading zeros, and a character of a string can be
written as itself or by an escape sequence.

The first character of a spelling tells of which kind the token is (`Spelling.shape`), and in each
kind the characters that follow the text decide that no longer spelling starts in the same place
(`Longest` and the lemmas about it).
-/

namespace Brisk

/-- How the content of a string literal is written: each character as itself or by an escape
sequence. -/
inductive Escaped : List Char → List Char → Prop where
  | nil : Escaped [] []
  | plain {c : Char} {cs content : List Char} (hquote : c ≠ '"') (hescape : c ≠ '\\')
      (h : Escaped cs content) : Escaped (c :: cs) (c :: content)
  | escape {e d : Char} {cs content : List Char} (he : Scan.unescape? e = some d)
      (h : Escaped cs content) : Escaped ('\\' :: e :: cs) (d :: content)

/-- The texts by which a token is written. -/
inductive Token.Spelling : List Char → Token → Prop where
  | symbol (s : Symbol) : Spelling s.text.toList (.symbol s)
  | keyword (k : Keyword) : Spelling k.text.toList (.keyword k)
  | identifier {c : Char} {cs : List Char} (hstart : Scan.startsWord c = true)
      (hrest : ∀ d ∈ cs, Scan.continuesWord d = true)
      (hkeyword : ∀ k : Keyword, k.text ≠ String.ofList (c :: cs)) :
      Spelling (c :: cs) (.identifier (String.ofList (c :: cs)))
  | int {ds : List Char} {n : Int32} (hne : ds ≠ []) (hds : ∀ d ∈ ds, d.isDigit = true)
      (hn : n.toInt = Integer.ofDigits ds) : Spelling ds (.int n)
  /-- The value of a float is what its text is read as. -/
  | float {ds fs : List Char} {x : Float} (hne : ds ≠ []) (hds : ∀ d ∈ ds, d.isDigit = true)
      (hfs : ∀ d ∈ fs, d.isDigit = true)
      (hx : Decimal.read? (String.ofList (ds ++ '.' :: fs)) = some x) :
      Spelling (ds ++ '.' :: fs) (.float x)
  | str {cs content : List Char} (h : Escaped cs content) :
      Spelling ('"' :: (cs ++ ['"'])) (.str (String.ofList content))

/-- Whether a token has a spelling. -/
def Token.Spellable (t : Token) : Prop := ∃ text, t.Spelling text

/-- Whether a token can be written in a source: integers have no sign, and names are words that are
no keywords. -/
def Token.Lexical : Token → Prop
  | .identifier name =>
    (∃ c cs, name.toList = c :: cs ∧ Scan.startsWord c = true ∧
      ∀ d ∈ cs, Scan.continuesWord d = true) ∧ ∀ k : Keyword, k.text ≠ name
  | .int n => 0 ≤ n
  | .endOfFile | .symbol _ | .keyword _ | .str _ | .float _ => True

/-- Whether no longer text that some token is written by starts where `text` does, in front of
`after`. -/
def Longest (text after : List Char) : Prop :=
  ∀ longer t, longer <+: text ++ after → Token.Spelling longer t → longer.length ≤ text.length

/-! ## Classes of characters -/

/-- Digits do not start words. -/
theorem Scan.startsWord_of_isDigit {c : Char} (h : c.isDigit = true) : startsWord c = false := by
  have hdigit : 48 ≤ c.val.toNat ∧ c.val.toNat ≤ 57 := by
    simpa [Char.isDigit, UInt32.le_iff_toNat_le] using h
  have hletters : ¬(65 ≤ c.val.toNat ∧ c.val.toNat ≤ 90) ∧
      ¬(97 ≤ c.val.toNat ∧ c.val.toNat ≤ 122) := by omega
  have hscore : c ≠ '_' := by
    rintro rfl
    exact absurd h (by decide)
  have hranges : startsWord c =
      (decide (65 ≤ c.val ∧ c.val ≤ 90) || (97 ≤ c.val && c.val ≤ 122) || c == '_') := rfl
  rw [hranges]
  simpa [UInt32.le_iff_toNat_le, hscore] using hletters

/-- A symbol is one character, or two of which the first asks for the one behind it. -/
theorem Symbol.text_eq (s : Symbol) :
    (∃ c, s.text.toList = [c] ∧ single? c = some s) ∨
      ∃ c d, s.text.toList = [c, d] ∧ pair? c d = some s ∧ needsNext c = true := by
  cases s <;> first
    | exact .inl ⟨_, rfl, rfl⟩
    | exact .inr ⟨_, _, rfl, rfl, rfl⟩

/-- A symbol that is made of one character is written with it. -/
theorem Symbol.text_of_single? {c : Char} {s : Symbol} (h : single? c = some s) :
    s.text.toList = [c] := by
  unfold single? at h
  split at h <;> cases h <;> rfl

/-- A symbol that is made of two characters is written with them. -/
theorem Symbol.text_of_pair? {c d : Char} {s : Symbol} (h : pair? c d = some s) :
    s.text.toList = [c, d] := by
  unfold pair? at h
  split at h <;> cases h <;> rfl

/-- The first character of a symbol starts no other token. -/
theorem Symbol.text_first (s : Symbol) : ∃ c cs, s.text.toList = c :: cs ∧ c ≠ '"' ∧
    c.isDigit = false ∧ Scan.startsWord c = false := by
  cases s <;> exact ⟨_, _, rfl, by decide, by decide, by decide⟩

/-- Keywords are words. -/
theorem Keyword.text_word (k : Keyword) : ∃ c cs, k.text.toList = c :: cs ∧
    Scan.startsWord c = true ∧ ∀ d ∈ cs, Scan.continuesWord d = true := by
  cases k with
  | truth b => cases b <;> exact ⟨_, _, rfl, rfl, List.all_eq_true.mp rfl⟩
  | type t => cases t <;> exact ⟨_, _, rfl, rfl, List.all_eq_true.mp rfl⟩
  | letKey | mutKey | fnKey | whileKey | ifKey | elseKey | returnKey =>
    exact ⟨_, _, rfl, rfl, List.all_eq_true.mp rfl⟩

/-! ## Kinds of spellings -/

namespace Token.Spelling

variable {c : Char} {cs text : List Char} {t : Token}

/-- The end of the source is not written. -/
theorem ne_endOfFile (h : Spelling text t) : t ≠ .endOfFile := by
  cases h <;> simp

/-- Integers are written without a sign, and names are words that are no keywords. -/
theorem lexical (h : Spelling text t) : t.Lexical := by
  cases h with
  | symbol | keyword | float | str => trivial
  | @identifier c cs hstart hrest hkeyword =>
    exact ⟨⟨c, cs, String.toList_ofList, hstart, hrest⟩, hkeyword⟩
  | @int ds n _ _ hn =>
    show 0 ≤ n
    rw [Int32.le_iff_toInt_le, hn]
    exact Int.natCast_nonneg _

/-- The first character of a spelling tells what the others can be. -/
theorem shape (h : Spelling text t) : ∃ c cs, text = c :: cs ∧
    ((c = '"' ∧ ∃ ds content, cs = ds ++ ['"'] ∧ Escaped ds content) ∨
      (c.isDigit = true ∧ ((∀ d ∈ text, d.isDigit = true) ∨
        ∃ ds fs, text = ds ++ '.' :: fs ∧ (∀ d ∈ ds, d.isDigit = true) ∧
          ∀ d ∈ fs, d.isDigit = true)) ∨
      (Scan.startsWord c = true ∧ ∀ d ∈ cs, Scan.continuesWord d = true) ∨
      ∃ s : Symbol, s.text.toList = text) := by
  cases h with
  | symbol s =>
    obtain ⟨c, cs, htext, -⟩ := s.text_first
    exact ⟨c, cs, htext, .inr (.inr (.inr ⟨s, rfl⟩))⟩
  | keyword k =>
    obtain ⟨c, cs, htext, hstart, hrest⟩ := k.text_word
    exact ⟨c, cs, htext, .inr (.inr (.inl ⟨hstart, hrest⟩))⟩
  | @identifier c cs hstart hrest _ => exact ⟨c, cs, rfl, .inr (.inr (.inl ⟨hstart, hrest⟩))⟩
  | int hne hds _ =>
    obtain ⟨c, cs, rfl⟩ := List.exists_cons_of_ne_nil hne
    exact ⟨c, cs, rfl, .inr (.inl ⟨hds c List.mem_cons_self, .inl hds⟩)⟩
  | @float ds fs x hne hds hfs _ =>
    obtain ⟨c, cs, rfl⟩ := List.exists_cons_of_ne_nil hne
    exact ⟨c, cs ++ '.' :: fs, rfl,
      .inr (.inl ⟨hds c List.mem_cons_self, .inr ⟨c :: cs, fs, rfl, hds, hfs⟩⟩)⟩
  | @str cs content h => exact ⟨'"', cs ++ ['"'], rfl, .inl ⟨rfl, cs, content, rfl, h⟩⟩

/-- Behind a quotation mark stands the content of a string, up to the next one. -/
theorem of_quote (h : Spelling ('"' :: cs) t) :
    ∃ ds content, cs = ds ++ ['"'] ∧ Escaped ds content := by
  obtain ⟨c, cs', htext, h⟩ := h.shape
  obtain ⟨rfl, rfl⟩ := List.cons.inj htext
  -- The quotation mark is no digit, starts no word and is not the first character of a symbol.
  rcases h with ⟨-, h⟩ | ⟨h, -⟩ | ⟨h, -⟩ | ⟨s, h⟩
  · exact h
  · exact absurd h (by decide)
  · exact absurd h (by decide)
  · obtain ⟨c, cs', htext, hquote, -⟩ := s.text_first
    rw [h] at htext
    exact absurd (List.cons.inj htext).1.symm hquote

/-- What starts with a digit is a sequence of digits, or two with a point between them. -/
theorem of_isDigit (h : Spelling (c :: cs) t) (hc : c.isDigit = true) :
    (∀ d ∈ c :: cs, d.isDigit = true) ∨
      ∃ ds fs, c :: cs = ds ++ '.' :: fs ∧ (∀ d ∈ ds, d.isDigit = true) ∧
        ∀ d ∈ fs, d.isDigit = true := by
  obtain ⟨c', cs', htext, h⟩ := h.shape
  obtain ⟨rfl, rfl⟩ := List.cons.inj htext
  rcases h with ⟨rfl, -⟩ | ⟨-, h⟩ | ⟨h, -⟩ | ⟨s, h⟩
  · exact absurd hc (by decide)
  · exact h
  · rw [Scan.startsWord_of_isDigit hc] at h
    exact absurd h (by decide)
  · obtain ⟨c', cs', htext, -, hdigit, -⟩ := s.text_first
    rw [h] at htext
    obtain ⟨rfl, rfl⟩ := List.cons.inj htext
    exact absurd hc (by simp [hdigit])

/-- What starts like a word is a word. -/
theorem of_startsWord (h : Spelling (c :: cs) t) (hc : Scan.startsWord c = true) :
    ∀ d ∈ cs, Scan.continuesWord d = true := by
  obtain ⟨c', cs', htext, h⟩ := h.shape
  obtain ⟨rfl, rfl⟩ := List.cons.inj htext
  rcases h with ⟨rfl, -⟩ | ⟨h, -⟩ | ⟨-, h⟩ | ⟨s, h⟩
  · exact absurd hc (by decide)
  · rw [Scan.startsWord_of_isDigit h] at hc
    exact absurd hc (by decide)
  · exact h
  · obtain ⟨c', cs', htext, -, -, hword⟩ := s.text_first
    rw [h] at htext
    obtain ⟨rfl, rfl⟩ := List.cons.inj htext
    exact absurd hc (by simp [hword])

/-- What starts like a symbol is a symbol. -/
theorem of_symbol {s : Symbol} {cs' : List Char} (h : Spelling (c :: cs) t)
    (hs : s.text.toList = c :: cs') : ∃ s : Symbol, s.text.toList = c :: cs := by
  obtain ⟨c', ds, htext, hquote, hdigit, hword⟩ := s.text_first
  rw [hs] at htext
  obtain ⟨rfl, rfl⟩ := List.cons.inj htext
  obtain ⟨c', ds, htext, h⟩ := h.shape
  obtain ⟨rfl, rfl⟩ := List.cons.inj htext
  rcases h with ⟨h, -⟩ | ⟨h, -⟩ | ⟨h, -⟩ | h
  · exact absurd h hquote
  · exact absurd h (by simp [hdigit])
  · exact absurd h (by simp [hword])
  · exact h

end Token.Spelling

/-! ## Longest spellings -/

section Longest

variable {c d : Char} {cs ds fs after content : List Char}

/-- A longer spelling starts with the same character. -/
theorem longest_of_cons (h : ∀ ds t, ds <+: cs ++ after → Token.Spelling (c :: ds) t →
    ds.length ≤ cs.length) : Longest (c :: cs) after := by
  intro longer t hpre hspelling
  obtain ⟨c', ds, rfl, -⟩ := hspelling.shape
  obtain ⟨rfl, htail⟩ := List.cons_prefix_cons.mp hpre
  exact Nat.succ_le_succ (h ds t htail hspelling)

/-- A run of characters of a class goes no further than to the first character that is not of the
class. -/
theorem length_le_of_forall {P : Char → Prop} (hds : ∀ d ∈ ds, P d) (hpre : ds <+: cs ++ after)
    (hstop : ∀ d, after.head? = some d → ¬P d) : ds.length ≤ cs.length := by
  -- The characters end with `cs` at the latest, since what follows has not the property.
  induction cs generalizing ds with
  | nil =>
    cases ds with
    | nil => exact Nat.le_refl 0
    | cons d ds =>
      obtain ⟨more, rfl⟩ := hpre
      exact absurd (hds d List.mem_cons_self) (hstop d rfl)
  | cons c cs ih =>
    cases ds with
    | nil => exact Nat.zero_le _
    | cons d ds =>
      obtain ⟨-, hpre⟩ := List.cons_prefix_cons.mp hpre
      exact Nat.succ_le_succ (ih (fun d hd => hds d (List.mem_cons_of_mem _ hd)) hpre)

/-- A word ends where no word goes on. -/
theorem longest_word (hc : Scan.startsWord c = true)
    (hstop : ∀ d, after.head? = some d → Scan.continuesWord d = false) :
    Longest (c :: cs) after := by
  apply longest_of_cons
  intro ds t hpre hspelling
  have hds := hspelling.of_startsWord hc
  refine length_le_of_forall hds hpre ?_
  intro d hd
  rw [hstop d hd]
  decide

/-- Digits in front of a point are a prefix of other digits in front of a point only if they are the
same. -/
theorem digits_eq_of_prefix (hcs : ∀ d ∈ cs, d.isDigit = true) (hds : ∀ d ∈ ds, d.isDigit = true)
    (hafter : ∀ d, after.head? = some d → d.isDigit = false) (h : ds ++ '.' :: fs <+: cs ++ after) :
    cs = ds ∧ '.' :: fs <+: after := by
  induction cs generalizing ds with
  | nil =>
    cases ds with
    | nil => exact ⟨rfl, h⟩
    | cons d ds =>
      obtain ⟨more, rfl⟩ := h
      exact absurd (hds d List.mem_cons_self) (by simp [hafter d rfl])
  | cons c cs ih =>
    -- The point cannot stand among the digits of the other.
    cases ds with
    | nil =>
      obtain ⟨rfl, -⟩ := List.cons_prefix_cons.mp h
      exact absurd (hcs '.' List.mem_cons_self) (by decide)
    | cons d ds =>
      obtain ⟨rfl, htail⟩ := List.cons_prefix_cons.mp h
      obtain ⟨rfl, hpoint⟩ := ih (fun d hd => hcs d (List.mem_cons_of_mem _ hd))
        (fun d hd => hds d (List.mem_cons_of_mem _ hd)) htail
      exact ⟨rfl, hpoint⟩

/-- An integer ends where neither a digit nor a point follows. -/
theorem longest_int (hds : ∀ d ∈ c :: cs, d.isDigit = true)
    (hstop : ∀ d, after.head? = some d → d.isDigit = false)
    (hpoint : after.head? ≠ some '.') : Longest (c :: cs) after := by
  intro longer t hpre hspelling
  -- What is longer starts with the same digit, so it is a number as well.
  obtain ⟨c', ds, rfl, -⟩ := hspelling.shape
  obtain ⟨rfl, -⟩ := List.cons_prefix_cons.mp hpre
  rcases hspelling.of_isDigit (hds c' List.mem_cons_self) with h | ⟨ds', fs, heq, hds', -⟩
  · -- Digits only: they end before what follows.
    refine length_le_of_forall h hpre ?_
    intro d hd
    rw [hstop d hd]
    decide
  · -- Digits and a point: the point would follow.
    rw [heq] at hpre
    obtain ⟨-, h⟩ := digits_eq_of_prefix hds hds' hstop hpre
    obtain ⟨more, rfl⟩ := h
    exact absurd rfl hpoint

/-- A float ends where no digit follows. -/
theorem longest_float (hcs : ∀ d ∈ c :: cs, d.isDigit = true)
    (hstop : ∀ d, after.head? = some d → d.isDigit = false) :
    Longest (c :: cs ++ '.' :: fs) after := by
  intro longer t hpre hspelling
  obtain ⟨c', ds, rfl, -⟩ := hspelling.shape
  rw [List.append_assoc] at hpre
  -- The point is no digit, so it ends the whole digits.
  have hpoint : ∀ d, ('.' :: fs ++ after).head? = some d → d.isDigit = false := by
    intro d hd
    obtain rfl := Option.some.inj hd
    decide
  obtain ⟨rfl, -⟩ := List.cons_prefix_cons.mp hpre
  rcases hspelling.of_isDigit (hcs c' List.mem_cons_self) with h | ⟨ds', fs', heq, hds', hfs'⟩
  · -- Digits only: they end before the point.
    have hle : (c' :: ds).length ≤ (c' :: cs).length := by
      refine length_le_of_forall h hpre ?_
      intro d hd
      rw [hpoint d hd]
      decide
    rw [List.length_append]
    omega
  · -- Digits and a point: it is the same point, and the fraction ends before what follows.
    rw [heq] at hpre ⊢
    obtain ⟨hds, h⟩ := digits_eq_of_prefix hcs hds' hpoint hpre
    obtain ⟨-, h⟩ := List.cons_prefix_cons.mp h
    have hle : fs'.length ≤ fs.length := by
      refine length_le_of_forall hfs' h ?_
      intro d hd
      rw [hstop d hd]
      decide
    rw [hds, List.length_append, List.length_append, List.length_cons, List.length_cons]
    omega

/-- The content of a string ends at the first quotation mark that no backslash escapes. -/
theorem Escaped.length_le {content' : List Char} (h : Escaped cs content) (h' : Escaped ds content')
    (hpre : ds ++ ['"'] <+: cs ++ '"' :: after) : ds.length ≤ cs.length := by
  -- By induction on one of the contents: wherever both go on, they do it with the same character or
  -- escape sequence, so the other cannot pass the first quotation mark either.
  induction h generalizing ds content' with
  | nil =>
    cases h' with
    | nil => exact Nat.le_refl 0
    | plain hquote _ _ => exact absurd (List.cons_prefix_cons.mp hpre).1 hquote
    | escape _ _ => exact absurd (List.cons_prefix_cons.mp hpre).1 (by decide)
  | plain _ hescape _ ih =>
    cases h' with
    | nil => exact Nat.zero_le _
    | plain _ _ h' => exact Nat.succ_le_succ (ih h' (List.cons_prefix_cons.mp hpre).2)
    | escape _ _ => exact absurd (List.cons_prefix_cons.mp hpre).1.symm hescape
  | escape _ _ ih =>
    cases h' with
    | nil => exact Nat.zero_le _
    | plain _ hescape _ => exact absurd (List.cons_prefix_cons.mp hpre).1 hescape
    | escape _ h' =>
      obtain ⟨-, hpre⟩ := List.cons_prefix_cons.mp hpre
      exact Nat.succ_le_succ (Nat.succ_le_succ (ih h' (List.cons_prefix_cons.mp hpre).2))

/-- A string ends with its quotation mark, whatever follows. -/
theorem longest_str (h : Escaped cs content) : Longest ('"' :: (cs ++ ['"'])) after := by
  apply longest_of_cons
  intro ds t hpre hspelling
  obtain ⟨ds, content', rfl, h'⟩ := hspelling.of_quote
  rw [List.append_assoc] at hpre
  have hle := h.length_le h' hpre
  rw [List.length_append, List.length_append]
  omega

/-- A symbol of one character ends there if the character behind it makes no other symbol with
it. -/
theorem longest_single {s : Symbol} (hs : Symbol.single? c = some s)
    (hnext : Symbol.needsNext c = true → ∀ d, after.head? = some d → Symbol.pair? c d = none) :
    Longest [c] after := by
  apply longest_of_cons
  intro ds t hpre hspelling
  obtain ⟨s', hs'⟩ := hspelling.of_symbol (Symbol.text_of_single? hs)
  -- A single symbol is as long as the character.
  rcases s'.text_eq with ⟨c', htext, -⟩ | ⟨c', d, htext, hpair, hneeds⟩
  · rw [hs'] at htext
    exact Nat.le_of_eq (congrArg List.length (List.cons.inj htext).2)
  · -- Another symbol would be a pair, which the character behind does not make.
    rw [hs'] at htext
    obtain ⟨rfl, rfl⟩ := List.cons.inj htext
    obtain ⟨more, rfl⟩ := hpre
    rw [hnext hneeds d rfl] at hpair
    exact absurd hpair (by simp)

/-- No symbol has more than two characters. -/
theorem longest_pair {s : Symbol} (hs : Symbol.pair? c d = some s) : Longest [c, d] after := by
  apply longest_of_cons
  intro ds t _ hspelling
  obtain ⟨s', hs'⟩ := hspelling.of_symbol (Symbol.text_of_pair? hs)
  rcases s'.text_eq with ⟨c', htext, -⟩ | ⟨c', d', htext, -⟩
  · rw [hs'] at htext
    have hlength : ds.length = 0 := congrArg List.length (List.cons.inj htext).2
    exact Nat.le_trans (Nat.le_of_eq hlength) (Nat.zero_le 1)
  · rw [hs'] at htext
    have hlength : ds.length = 1 := congrArg List.length (List.cons.inj htext).2
    exact Nat.le_of_eq hlength

end Longest

end Brisk
