import Brisk.Proofs.Token.Refusal
import Brisk.Proofs.Token.Written

/-!
# A source for given tokens

Every list of tokens that have spellings is lexed from some source: one that holds a spelling of
each of them and a blank behind it (`Lexer.exists_yields`). A string literal may have been written
with carriage returns in it, which a source would take for line breaks; it is written with escape
sequences for them instead.
-/

namespace Brisk

/-- The content of a string literal can be written without carriage returns. -/
theorem Escaped.exists_noReturn {cs content : List Char} (h : Escaped cs content) :
    ∃ cs', Escaped cs' content ∧ '\r' ∉ cs' := by
  induction h with
  | nil => exact ⟨[], .nil, by simp⟩
  | @plain c cs content hquote hescape _ ih =>
    obtain ⟨cs', hcs', hnone⟩ := ih
    by_cases hc : c = '\r'
    · -- Only the carriage return itself is written in another way.
      subst hc
      refine ⟨'\\' :: 'r' :: cs', .escape rfl hcs', ?_⟩
      simpa using hnone
    · refine ⟨c :: cs', .plain hquote hescape hcs', ?_⟩
      simpa [Ne.symm hc] using hnone
  | @escape e d cs content he _ ih =>
    obtain ⟨cs', hcs', hnone⟩ := ih
    -- What may be escaped is no carriage return.
    have hne : '\r' ≠ e := by
      rintro rfl
      exact absurd he (by simp [Scan.unescape?])
    refine ⟨'\\' :: e :: cs', .escape he hcs', ?_⟩
    simpa [hne] using hnone

namespace Token

variable {t : Token} {ts : List Token}

/-- A token that has a spelling has one without carriage returns. -/
theorem Spellable.exists_noReturn (h : t.Spellable) : ∃ text, t.Spelling text ∧ '\r' ∉ text := by
  obtain ⟨text, h⟩ := h
  cases h with
  | symbol s => exact ⟨_, .symbol s, s.return_not_mem⟩
  | keyword k => exact ⟨_, .keyword k, k.return_not_mem⟩
  | identifier hstart hrest hkeyword =>
    exact ⟨_, .identifier hstart hrest hkeyword, Scan.return_not_mem_word hstart hrest⟩
  | int hne hds hn => exact ⟨_, .int hne hds hn, Scan.return_not_mem_digits hds⟩
  | float hne hds hfs hx =>
    refine ⟨_, .float hne hds hfs hx, ?_⟩
    have hds := Scan.return_not_mem_digits hds
    have hfs := Scan.return_not_mem_digits hfs
    simp [hds, hfs]
  -- A string is spelt with its carriage returns escaped.
  | str hescaped =>
    obtain ⟨cs, hcs, hnone⟩ := hescaped.exists_noReturn
    refine ⟨_, .str hcs, ?_⟩
    simpa using hnone

/-- Whatever a token is written by, there are limits that allow it. -/
theorem exists_within (t : Token) (text : List Char) :
    ∃ limits, ∀ limits', limits ≤ limits' → t.Within limits' text := by
  cases t with
  | identifier | keyword => exact ⟨⟨text.length, 0, 0, 0⟩, fun _ h => h.1⟩
  | str s => exact ⟨⟨0, s.length, 0, 0⟩, fun _ h => h.2.1⟩
  | endOfFile | symbol | int | float => exact ⟨⟨0, 0, 0, 0⟩, fun _ _ => trivial⟩

/-- Tokens with spellings can be written with a blank behind each of them. -/
theorem exists_written (h : ∀ t ∈ ts, t.Spellable) : ∃ (limits : Limits) (items : List Written),
    items.map (·.token) = ts ∧ (∀ item ∈ items, item.blanks = [' ']) ∧
      ∀ limits', limits ≤ limits' → ∀ item ∈ items, Written.Fits limits' item := by
  induction ts with
  | nil => exact ⟨⟨0, 0, 0, 0⟩, [], rfl, by simp, by simp⟩
  | cons t ts ih =>
    obtain ⟨limits, items, hitems, hblanks, hfits⟩ := ih fun u hu => h u (List.mem_cons_of_mem t hu)
    obtain ⟨text, hspelling, hnone⟩ := (h t List.mem_cons_self).exists_noReturn
    -- The limits that are wide enough for one token and for the others are wide enough for all.
    obtain ⟨limits₁, hwithin⟩ := t.exists_within text
    obtain ⟨wide, hle, hle₁⟩ := Limits.exists_le_le limits limits₁
    refine ⟨wide, ⟨text, t, [' ']⟩ :: items, by rw [List.map_cons, hitems], by simpa using hblanks,
      fun limits' hwide item hitem => ?_⟩
    rcases List.mem_cons.mp hitem with rfl | hitem
    · have hblank : ∀ c ∈ [' '], Text.isBlank c = true := List.all_eq_true.mp (by decide)
      exact ⟨hspelling, hwithin _ (Limits.le_trans hle₁ hwide), hnone, hblank⟩
    · exact hfits _ (Limits.le_trans hle hwide) item hitem

end Token

/-- Blanks behind each of some tokens keep them apart. -/
theorem Written.apart_of_blanks {items : List Written} (h : ∀ item ∈ items, item.blanks ≠ []) :
    Apart items := by
  induction items with
  | nil => trivial
  | cons item items ih =>
    have htail := ih fun i hi => h i (List.mem_cons_of_mem item hi)
    cases items with
    | nil => trivial
    | cons next items => exact ⟨h item List.mem_cons_self, htail⟩

/-- Tokens with spellings are what lexing some source gives, under all limits that are wide
enough. -/
theorem Lexer.exists_yields {ts : List Token} (h : ∀ t ∈ ts, t.Spellable) :
    ∃ limits bytes, ∀ limits', limits ≤ limits' →
      ∃ ls, Yields ⟨limits', .ofBytes bytes .endOfFile, false⟩ ls ∧
        ls.map (·.token) = ts ++ [.endOfFile] := by
  obtain ⟨limits, items, rfl, hblanks, hfits⟩ := Token.exists_written h
  have hapart : Written.Apart items :=
    Written.apart_of_blanks fun item hitem => by simp [hblanks item hitem]
  refine ⟨limits, Text.bytes (String.ofList (Written.chars items)), fun limits' hwide => ?_⟩
  refine ⟨Written.lexemes [] items, ?_, Written.map_token_lexemes [] items⟩
  exact yields_text (by simp) (by simp) (hfits limits' hwide) hapart

end Brisk
