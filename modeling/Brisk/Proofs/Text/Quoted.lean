import Brisk.Text.Quoted
import Mathlib.Data.List.Basic

/-!
# Quoted text tells texts apart

Between quotation marks no character is written as the beginning of another
(`Text.quoteChar_append_injective`), so different texts are quoted differently
(`Text.quote_injective`). Line feeds are never written as themselves.
-/

namespace Brisk.Text

/-- What stands in front of the first mark, and what behind it, can be told from the whole. -/
theorem append_mark_injective {mark : Char} {cs cs' rest rest' : List Char} (h : mark ∉ cs)
    (h' : mark ∉ cs') (heq : cs ++ mark :: rest = cs' ++ mark :: rest') :
    cs = cs' ∧ rest = rest' := by
  -- As long as no mark is met, both texts go on with the same character.
  induction cs generalizing cs' with
  | nil =>
    cases cs' with
    | nil => exact ⟨rfl, (List.cons.inj heq).2⟩
    | cons c' cs' => exact absurd ((List.cons.inj heq).1 ▸ List.mem_cons_self) h'
  | cons c cs ih =>
    cases cs' with
    | nil => exact absurd ((List.cons.inj heq).1 ▸ List.mem_cons_self) h
    | cons c' cs' =>
      obtain ⟨rfl, htail⟩ := List.cons.inj heq
      obtain ⟨rfl, hrest⟩ := ih (fun hc => h (List.mem_cons_of_mem c hc))
        (fun hc => h' (List.mem_cons_of_mem c hc)) htail
      exact ⟨rfl, hrest⟩

/-! ## Digits in hexadecimal -/

/-- Each hexadecimal digit is written in its own way. -/
theorem digitChar_injective : ∀ j < 16, ∀ k < 16, Nat.digitChar j = Nat.digitChar k → j = k := by
  decide

/-- Different numbers have different digits. -/
theorem toDigits_injective {n n' : Nat} (h : Nat.toDigits 16 n = Nat.toDigits 16 n') : n = n' := by
  induction n using Nat.strongRecOn generalizing n' with
  | ind n ih =>
    have hmod : ∀ k, k % 16 < 16 := fun k => Nat.mod_lt k (by decide)
    -- A number with several digits is never written as one of a single digit.
    have hlong : ∀ k l d, Nat.toDigits 16 k ++ [d] ≠ [l] := by
      intro k l d heq
      rcases List.append_eq_singleton_iff.mp heq with ⟨hnil, -⟩ | ⟨-, hnil⟩
      · exact Nat.toDigits_ne_nil hnil
      · exact List.cons_ne_nil _ _ hnil
    rw [Nat.toDigits_eq_if (n := n) (by decide), Nat.toDigits_eq_if (n := n') (by decide)] at h
    split at h
    next hn =>
      split at h
      next hn' => exact digitChar_injective n hn n' hn' (List.cons.inj h).1
      next hn' => exact absurd h.symm (hlong _ _ _)
    next hn =>
      split at h
      next hn' => exact absurd h (hlong _ _ _)
      next hn' =>
        -- The last digits agree, and so do those of the quotients in front of them.
        obtain ⟨hfront, hlast⟩ := List.append_inj' h rfl
        have hdiv := ih (n / 16) (by omega) hfront
        have hrem := digitChar_injective _ (hmod n) _ (hmod n') (List.cons.inj hlast).1
        omega

/-- Numbers are written with hexadecimal digits. -/
theorem mem_toDigits {n : Nat} {c : Char} (h : c ∈ Nat.toDigits 16 n) :
    ∃ k < 16, c = Nat.digitChar k := by
  induction n using Nat.strongRecOn with
  | ind n ih =>
    rw [Nat.toDigits_eq_if (by decide)] at h
    split at h
    next hn => exact ⟨n, hn, List.mem_singleton.mp h⟩
    next hn =>
      rcases List.mem_append.mp h with hfront | hlast
      · exact ih (n / 16) (by omega) hfront
      · exact ⟨n % 16, Nat.mod_lt n (by decide), List.mem_singleton.mp hlast⟩

/-- The digits of a number hold neither a line feed nor the mark that ends a code point. -/
theorem not_mem_toDigits (n : Nat) : '\n' ∉ Nat.toDigits 16 n ∧ '\x7d' ∉ Nat.toDigits 16 n := by
  have hne : ∀ k < 16, '\n' ≠ Nat.digitChar k ∧ '\x7d' ≠ Nat.digitChar k := by decide
  constructor
  · intro hmem
    obtain ⟨k, hk, heq⟩ := mem_toDigits hmem
    exact (hne k hk).1 heq
  · intro hmem
    obtain ⟨k, hk, heq⟩ := mem_toDigits hmem
    exact (hne k hk).2 heq

/-! ## Characters between quotation marks -/

variable {c c' letter : Char}

/-- The characters that have a letter, each with its own. -/
def letters : List (Char × Char) :=
  [('\x00', '0'), ('\t', 't'), ('\r', 'r'), ('\n', 'n'), ('"', '"'), ('\\', '\\')]

/-- A letter behind a backslash belongs to the character that it is listed for. -/
theorem mem_letters (h : escapeLetter? c = some letter) : (c, letter) ∈ letters := by
  unfold escapeLetter? at h
  repeat' (split at h; next hc => rw [hc, ← Option.some.inj h]; decide)
  exact absurd h (by simp)

/-- No letter belongs to two characters. -/
theorem escapeLetter?_injective (h : escapeLetter? c = some letter)
    (h' : escapeLetter? c' = some letter) : c = c' := by
  have hpairs : ∀ p ∈ letters, ∀ p' ∈ letters, p.2 = p'.2 → p.1 = p'.1 := by decide
  exact hpairs _ (mem_letters h) _ (mem_letters h') rfl

/-- A character is written with its letter, as itself or by its code point. -/
inductive Quoting (c : Char) : List Char → Prop where
  | letter {l : Char} (h : escapeLetter? c = some l) : Quoting c ['\\', l]
  | plain (h : escapeLetter? c = none) : Quoting c [c]
  | codePoint : Quoting c (codePoint c)

/-- Every character is written as itself, with a letter or with its number. -/
theorem quoting (c : Char) : Quoting c (quoteChar c) := by
  unfold quoteChar
  cases hletter : escapeLetter? c with
  | some l => exact .letter hletter
  | none =>
    simp only
    split
    · exact .plain hletter
    · exact .codePoint

/-- No character is written as the beginning of another. -/
theorem Quoting.append_injective {cs cs' rest rest' : List Char} (h : Quoting c cs)
    (h' : Quoting c' cs') (heq : cs ++ rest = cs' ++ rest') : c = c' ∧ rest = rest' := by
  -- Each sequence starts with a backslash, which is not written as itself.
  have hbackslash : escapeLetter? '\\' ≠ none := by decide
  have hletter : ∀ {d}, escapeLetter? d ≠ some 'u' := fun hd =>
    absurd (mem_letters hd) (by simp [letters])
  cases h with
  | letter hl =>
    cases h' with
    | letter hl' =>
      obtain ⟨rfl, hrest⟩ := List.cons.inj (List.cons.inj heq).2
      exact ⟨escapeLetter?_injective hl hl', hrest⟩
    | plain hnone => exact absurd ((List.cons.inj heq).1 ▸ hnone) hbackslash
    | codePoint => exact absurd ((List.cons.inj (List.cons.inj heq).2).1 ▸ hl) hletter
  | plain hnone =>
    cases h' with
    | letter => exact absurd ((List.cons.inj heq).1 ▸ hnone) hbackslash
    | plain => exact List.cons.inj heq
    | codePoint => exact absurd ((List.cons.inj heq).1 ▸ hnone) hbackslash
  | codePoint =>
    cases h' with
    | letter hl' => exact absurd ((List.cons.inj (List.cons.inj heq).2).1 ▸ hl') hletter
    | plain hnone => exact absurd ((List.cons.inj heq).1 ▸ hnone) hbackslash
    | codePoint =>
      -- The digits end at the mark behind them, which is no digit.
      unfold Text.codePoint at heq
      simp only [List.append_assoc, List.append_cancel_left_eq, List.singleton_append] at heq
      obtain ⟨hdigits, hrest⟩ := append_mark_injective (not_mem_toDigits c.toNat).2
        (not_mem_toDigits c'.toNat).2 heq
      exact ⟨Char.toNat_inj.mp (toDigits_injective hdigits), hrest⟩

/-- Line feeds are not written as themselves. -/
theorem Quoting.lineFeed_not_mem {cs : List Char} (h : Quoting c cs) : '\n' ∉ cs := by
  intro hmem
  -- A quoted character is an escape, the character itself or its code point.
  cases h with
  | letter hl =>
    have hletters : ∀ p ∈ letters, '\n' ∉ ['\\', p.2] := by decide
    exact hletters _ (mem_letters hl) hmem
  | plain hnone =>
    rw [← List.mem_singleton.mp hmem] at hnone
    exact absurd hnone (by decide)
  | codePoint =>
    have hdigits := (not_mem_toDigits c.toNat).1
    simp [Text.codePoint, hdigits] at hmem

/-- Characters that are written one after another can be told apart. -/
theorem flatMap_quoteChar_injective {cs cs' : List Char}
    (h : cs.flatMap quoteChar = cs'.flatMap quoteChar) : cs = cs' := by
  -- Every character is quoted as something, so no quoted text is empty behind the other's end.
  have hne : ∀ c rest, quoteChar c ++ rest ≠ [] := by
    intro c rest hnil
    have hquote := quoting c
    rw [(List.append_eq_nil_iff.mp hnil).1] at hquote
    cases hquote
  induction cs generalizing cs' with
  | nil =>
    cases cs' with
    | nil => rfl
    | cons c' cs' => exact absurd h.symm (hne c' _)
  | cons c cs ih =>
    cases cs' with
    | nil => exact absurd h (hne c _)
    | cons c' cs' =>
      rw [List.flatMap_cons, List.flatMap_cons] at h
      obtain ⟨rfl, hrest⟩ := (quoting c).append_injective (quoting c') h
      rw [ih hrest]

/-- Different texts are quoted differently. -/
theorem quote_injective {s s' : String} (h : quote s = quote s') : s = s' := by
  unfold quote at h
  have hlist := String.ofList_inj.mp h
  have hinner := List.append_cancel_left (List.append_cancel_right hlist)
  exact String.toList_inj.mp (flatMap_quoteChar_injective hinner)

/-- A quoted text has no line feeds, since they are written with a letter. -/
theorem lineFeed_not_mem_quote (s : String) : '\n' ∉ (quote s).toList := by
  have hchars : '\n' ∉ s.toList.flatMap quoteChar := by
    rw [List.mem_flatMap]
    rintro ⟨c, -, hc⟩
    exact (quoting c).lineFeed_not_mem hc
  unfold quote
  rw [String.toList_ofList]
  simpa using hchars

/-- Quoted text starts with a quotation mark. -/
theorem head?_quote (s : String) : (quote s).toList.head? = some '"' := by
  unfold quote
  rw [String.toList_ofList]
  rfl

end Brisk.Text
