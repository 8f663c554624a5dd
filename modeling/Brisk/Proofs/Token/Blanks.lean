import Brisk.Proofs.Token.Segmentation

/-!
# Blanks between tokens

What separates tokens: blank characters are in no word, no number and no symbol, and no token starts
with one. `Separated` says that the pieces that are left start with a blank or are none, which is
where every token ends, whatever its kind.

Blanks may hold line breaks of every style, so a text is compared with its pieces after its line
breaks have been written as line feeds. That can be done part by part unless a line break reaches
from one part into the next (`Text.normalize_append`).
-/

namespace Brisk

/-! ## Blank characters -/

namespace Text

/-- A blank character is no letter, no digit, no score, no point and no quotation mark, and it is in
no symbol. -/
theorem toNat_of_isBlank {c : Char} (h : isBlank c = true) :
    c.toNat ≤ 32 ∨ 127 < c.toNat := by
  unfold isBlank blankRanges at h
  simp only [List.any_cons, List.any_nil, Bool.or_false, Bool.or_eq_true, Bool.and_eq_true,
    decide_eq_true_eq] at h
  omega

/-- No character of the ASCII range behind the space is a blank. -/
theorem ne_of_isBlank {c d : Char} (h : isBlank c = true) (hd : 32 < d.toNat ∧ d.toNat ≤ 127) :
    c ≠ d := by
  rintro rfl
  have hc := toNat_of_isBlank h
  omega

/-- No blank is a digit. -/
theorem isDigit_of_isBlank {c : Char} (h : isBlank c = true) : c.isDigit = false := by
  have hc : c.val.toNat ≤ 32 ∨ 127 < c.val.toNat := toNat_of_isBlank h
  have hrange : c.isDigit = (48 ≤ c.val && c.val ≤ 57) := rfl
  rw [hrange]
  simp only [Bool.and_eq_false_iff, decide_eq_false_iff_not, UInt32.le_iff_toNat_le,
    UInt32.reduceToNat]
  omega

/-- No blank goes on with a word. -/
theorem continuesWord_of_isBlank {c : Char} (h : isBlank c = true) :
    Scan.continuesWord c = false := by
  have hc : c.val.toNat ≤ 32 ∨ 127 < c.val.toNat := toNat_of_isBlank h
  have hscore : c ≠ '_' := ne_of_isBlank h (by decide)
  have hranges : Scan.continuesWord c = (decide (65 ≤ c.val ∧ c.val ≤ 90) ||
    (97 ≤ c.val && c.val ≤ 122) || (48 ≤ c.val && c.val ≤ 57) || c == '_') := rfl
  rw [hranges]
  simp only [Bool.or_eq_false_iff, Bool.and_eq_false_iff, decide_eq_false_iff_not, not_and,
    UInt32.le_iff_toNat_le, UInt32.reduceToNat, beq_eq_false_iff_ne]
  refine ⟨⟨⟨?_, ?_⟩, ?_⟩, hscore⟩ <;> omega

/-- A blank character is no second half of a symbol. -/
theorem pair?_of_isBlank {c d : Char} (h : isBlank d = true) : Symbol.pair? c d = none := by
  unfold Symbol.pair?
  split <;> first | rfl | exact absurd rfl (ne_of_isBlank h (by decide))

/-- What a spelling starts with is not blank. -/
theorem isBlank_of_spelling {c : Char} {cs : List Char} {t : Token}
    (h : Token.Spelling (c :: cs) t) : isBlank c = false := by
  rw [Bool.eq_false_iff]
  intro hblank
  -- A token starts with a quotation mark, a digit, a letter, an underscore or a symbol.
  obtain ⟨c', cs', htext, h⟩ := h.shape
  obtain ⟨rfl, rfl⟩ := List.cons.inj htext
  rcases h with ⟨hc, -⟩ | ⟨hc, -⟩ | ⟨hc, -⟩ | ⟨s, hs⟩
  · exact ne_of_isBlank hblank (by decide) hc
  · rw [isDigit_of_isBlank hblank] at hc
    exact absurd hc (by decide)
  · have hword : Scan.continuesWord c = true := by
      unfold Scan.startsWord at hc
      unfold Scan.continuesWord Char.isAlphanum
      rw [Bool.or_eq_true] at hc ⊢
      exact hc.imp_left fun h => by rw [h, Bool.true_or]
    rw [continuesWord_of_isBlank hblank] at hword
    exact absurd hword (by decide)
  · -- No symbol starts with a blank.
    have hfirst : ∀ s : Symbol, ∀ d ds, s.text.toList = d :: ds → isBlank d = false := by
      intro s d ds hs
      cases s <;> (obtain ⟨rfl, -⟩ := List.cons.inj hs; decide)
    rw [hfirst s c cs hs] at hblank
    exact absurd hblank (by decide)

/-! ## Line breaks -/

/-- Line breaks of a text stay within its parts if the second part does not start with a line
feed. -/
theorem normalize_append {cs : List Char} {cs' : List Char} (h : cs'.head? ≠ some '\n') :
    normalize (cs ++ cs') = normalize cs ++ normalize cs' := by
  fun_induction normalize cs with
  | case1 => rfl
  | case2 cs ih =>
    rw [List.cons_append, List.cons_append, normalize, ih]
    rfl
  | case3 c cs hbreak ih =>
    rw [List.cons_append, normalize, ih]
    · rfl
    · -- A line feed behind `c` would stand at the front of one of the parts.
      rintro more rfl heq
      cases cs with
      | nil =>
        rw [List.nil_append] at heq
        rw [heq] at h
        exact h rfl
      | cons d cs =>
        obtain ⟨rfl, -⟩ := List.cons.inj heq
        exact hbreak cs rfl rfl

/-- A text without carriage returns has its line breaks as line feeds already. -/
theorem normalize_append_of_not_mem {cs : List Char} (h : '\r' ∉ cs) (cs' : List Char) :
    normalize (cs ++ cs') = cs ++ normalize cs' := by
  induction cs with
  | nil => rfl
  | cons c cs ih =>
    rw [List.mem_cons, not_or] at h
    rw [List.cons_append, normalize, ih h.2, if_neg (Ne.symm h.1)]
    · rfl
    · intro _ hc
      exact absurd hc.symm h.1

/-- The first character of a text with its line breaks as line feeds. -/
theorem head?_normalize (c : Char) (cs : List Char) :
    (normalize (c :: cs)).head? = some (if c = '\r' then '\n' else c) := by
  unfold normalize
  split
  · next heq => exact absurd heq (List.cons_ne_nil c cs)
  · next heq =>
    rw [(List.cons.inj heq).1, if_pos rfl]
    rfl
  · next heq =>
    rw [(List.cons.inj heq).1]
    rfl

/-- Blanks are blank with their line breaks as line feeds too. -/
theorem isBlank_normalize {cs : List Char} (h : ∀ c ∈ cs, isBlank c = true) :
    ∀ c ∈ normalize cs, isBlank c = true := by
  fun_induction normalize cs with
  | case1 => exact h
  | case2 cs ih =>
    intro c hc
    -- A carriage return and a line feed are one line feed.
    rcases List.mem_cons.mp hc with rfl | hc
    · decide
    · exact ih (fun d hd => h d (List.mem_cons_of_mem _ (List.mem_cons_of_mem _ hd))) c hc
  | case3 d cs hbreak ih =>
    -- Any other character is itself, or a line feed in place of a carriage return.
    intro c hc
    rcases List.mem_cons.mp hc with rfl | hc
    · split
      · decide
      · exact h d List.mem_cons_self
    · exact ih (fun d hd => h d (List.mem_cons_of_mem _ hd)) c hc

end Text

/-! ## Where tokens end -/

/-- Whether the pieces that are left start with a blank character, or there are none and the source
ends. -/
inductive Separated (edge : Edge) : List Placed → Prop where
  | stop (h : edge.failure = none) : Separated edge []
  | blank {p : Placed} {rest : List Placed} {c : Char} (hp : p.piece.char? = some c)
      (hc : Text.isBlank c = true) : Separated edge (p :: rest)

/-- The character at the front of what is left decides. -/
theorem separated_of_spells {edge : Edge} {rest : List Placed} {cs : List Char}
    (hfailure : edge.failure = none) (h : Spells rest cs [])
    (hcs : ∀ c, cs.head? = some c → Text.isBlank c = true) : Separated edge rest := by
  cases h with
  | nil => exact .stop hfailure
  | cons hc _ => exact .blank hc (hcs _ rfl)

/-- Line breaks in all their styles are blank. -/
theorem Piece.isBlank_raw? {piece : Piece} {c d : Char} (hc : piece.char? = some c)
    (hblank : Text.isBlank c = true) (hd : piece.raw? = some d) : Text.isBlank d = true := by
  cases piece with
  | char c' =>
    obtain rfl := Option.some.inj hc
    rw [← Option.some.inj hd]
    exact hblank
  | lineBreak style =>
    rw [← Option.some.inj hd]
    cases style <;> decide
  | undecodable => exact absurd hc (by simp [char?])

end Brisk
