import Brisk.Source.Decode

/-!
# Pieces as text

`Spells rest cs rest'` says that the pieces at the front of `rest` are read as the characters `cs`,
and that `rest'` is left. Where all pieces can be decoded, they spell the whole text of a source,
and whatever is consumed from the front is a prefix of that text (`Spells.split`).

`Laid` says that pieces stand where they should: each at the position behind the one before it, and
line breaks as pieces of their own. The position behind a text depends on the text alone
(`Position.behind`), so that it can be computed from what is consumed.
-/

namespace Brisk

/-- The pieces at the front of a list are read as given characters, and other pieces are left. -/
inductive Spells : List Placed → List Char → List Placed → Prop where
  | nil (rest : List Placed) : Spells rest [] rest
  | cons {p : Placed} {rest rest' : List Placed} {c : Char} {cs : List Char}
      (hc : p.piece.char? = some c) (h : Spells rest cs rest') : Spells (p :: rest) (c :: cs) rest'

namespace Spells

variable {rest rest' rest'' : List Placed} {cs cs' : List Char}

/-- A piece that is a character spells it. -/
theorem single {p : Placed} {c : Char} (hc : p.piece.char? = some c) :
    Spells (p :: rest) [c] rest :=
  .cons hc (.nil rest)

/-- Pieces spell texts one behind the other. -/
theorem append (h : Spells rest cs rest') (h' : Spells rest' cs' rest'') :
    Spells rest (cs ++ cs') rest'' := by
  induction h with
  | nil => exact h'
  | cons hc _ ih => exact .cons hc (ih h')

/-- Every piece is read as one character. -/
theorem length_add_length (h : Spells rest cs rest') : cs.length + rest'.length = rest.length := by
  induction h with
  | nil => simp
  | cons _ _ ih =>
    rw [List.length_cons, List.length_cons]
    omega

/-- What is left of pieces is a suffix of them. -/
theorem suffix (h : Spells rest cs rest') : rest' <:+ rest := by
  induction h with
  | nil => exact List.suffix_refl _
  | cons _ _ ih => exact ih.trans (List.suffix_cons _ _)

/-- What is consumed from the front of a text is a prefix of it, and the rest spells what is
left. -/
theorem split {text : List Char} (htext : Spells rest text []) (h : Spells rest cs rest') :
    ∃ after, text = cs ++ after ∧ Spells rest' after [] := by
  induction h generalizing text with
  | nil => exact ⟨text, rfl, htext⟩
  | cons hc _ ih =>
    obtain _ | ⟨hc', htext⟩ := htext
    obtain ⟨after, rfl, hafter⟩ := ih htext
    rw [hc] at hc'
    obtain rfl := Option.some.inj hc'
    exact ⟨after, rfl, hafter⟩

/-- A text that is consumed is consumed part by part. -/
theorem exists_of_append (h : Spells rest (cs ++ cs') rest'') :
    ∃ rest', Spells rest cs rest' ∧ Spells rest' cs' rest'' := by
  induction cs generalizing rest with
  | nil => exact ⟨rest, .nil rest, h⟩
  | cons c cs ih =>
    obtain _ | ⟨hc, h⟩ := h
    obtain ⟨rest', hfront, hback⟩ := ih h
    exact ⟨rest', .cons hc hfront, hback⟩

/-- Pieces that spell a text can all be decoded. -/
theorem piece_ne_undecodable {text : List Char} (h : Spells rest text []) :
    ∀ p ∈ rest, p.piece ≠ .undecodable := by
  intro p hp hpiece
  induction text generalizing rest with
  | nil =>
    cases h
    exact absurd hp List.not_mem_nil
  | cons c text ih =>
    -- The piece in front stands for a character, and the others for the rest of the text.
    obtain _ | ⟨hc, h⟩ := h
    rcases List.mem_cons.mp hp with rfl | hp
    · rw [hpiece] at hc
      exact absurd hc (by simp [Piece.char?])
    · exact ih h hp

end Spells

/-! ## Positions -/

/-- The position behind a text that starts at `p`. -/
def Position.behind (p : Position) (cs : List Char) : Position :=
  cs.foldl (fun p c => if c = '\n' then p.down else p.right) p

/-- Behind no text there is the same position. -/
@[simp]
theorem Position.behind_nil (p : Position) : p.behind [] = p := rfl

/-- A line feed leads to the next line, and any other character to the right. -/
theorem Position.behind_cons (p : Position) (c : Char) (cs : List Char) :
    p.behind (c :: cs) = (if c = '\n' then p.down else p.right).behind cs := rfl

/-- The position behind two texts is that behind the second one, from behind the first. -/
theorem Position.behind_append (p : Position) (cs cs' : List Char) :
    p.behind (cs ++ cs') = (p.behind cs).behind cs' := List.foldl_append

/-- Whether pieces stand one after another from the position `p` to `stop`, and line breaks are no
characters among them. -/
def Laid (stop : Position) : Position → List Placed → Prop
  | p, [] => p = stop
  | p, q :: rest => q.position = p ∧ q.piece ≠ .char '\n' ∧ Laid stop (p.after q.piece) rest

namespace Laid

variable {stop p : Position} {rest rest' : List Placed} {cs : List Char}

/-- Line breaks are pieces of their own. -/
theorem piece_ne_lineFeed (h : Laid stop p rest) : ∀ q ∈ rest, q.piece ≠ .char '\n' := by
  induction rest generalizing p with
  | nil => simp
  | cons q rest ih =>
    obtain ⟨-, hne, h⟩ := h
    intro q' hq'
    rcases List.mem_cons.mp hq' with rfl | hq'
    · exact hne
    · exact ih h q' hq'

/-- What is left behind a text starts at the position behind it. -/
theorem of_spells (h : Laid stop p rest) (hspells : Spells rest cs rest') :
    Laid stop (p.behind cs) rest' := by
  induction hspells generalizing p with
  | nil => exact h
  | @cons q rest rest' c cs hc _ ih =>
    obtain ⟨-, hne, h⟩ := h
    rw [Position.behind_cons]
    apply ih
    -- A position moves by a column or to the next line, just as the piece says.
    cases hq : q.piece with
    | char d =>
      rw [hq] at hc hne h
      obtain rfl : d = c := Option.some.inj hc
      have hd : d ≠ '\n' := by
        intro hd
        exact hne (by rw [hd])
      rw [if_neg hd]
      exact h
    | lineBreak style =>
      rw [hq] at hc h
      obtain rfl : '\n' = c := Option.some.inj hc
      rw [if_pos rfl]
      exact h
    | undecodable =>
      rw [hq] at hc
      exact absurd hc (by simp [Piece.char?])

end Laid

/-- Pieces are laid out by giving them their positions. -/
theorem Source.laid_place {pieces : List Piece} (h : ∀ q ∈ pieces, q ≠ .char '\n') (p : Position) :
    Laid (place p pieces).2 p (place p pieces).1 := by
  induction pieces generalizing p with
  | nil => rfl
  | cons q pieces ih =>
    have htail := ih (fun q' hq' => h q' (List.mem_cons_of_mem q hq')) (p.after q)
    exact ⟨rfl, h q List.mem_cons_self, htail⟩

/-- Placing pieces does not change them. -/
theorem Source.map_piece_place (pieces : List Piece) (p : Position) :
    (place p pieces).1.map (·.piece) = pieces := by
  induction pieces generalizing p with
  | nil => rfl
  | cons q pieces ih => exact congrArg (q :: ·) (ih (p.after q))

/-- The pieces of a text have line breaks as pieces of their own. -/
theorem Source.piecesOfChars_ne_break {b : Char} (hb : b = '\n' ∨ b = '\r') (cs : List Char) :
    ∀ q ∈ piecesOfChars cs, q ≠ .char b := by
  fun_induction piecesOfChars cs with
  | case1 => simp
  | case2 cs ih =>
    intro q hq
    rcases List.mem_cons.mp hq with rfl | hq
    · simp
    · exact ih q hq
  | case3 c cs _ ih =>
    intro q hq
    rcases List.mem_cons.mp hq with rfl | hq
    · -- A character that stands for itself is neither of the two breaks.
      split
      · simp
      split
      · simp
      next hcr hlf =>
        intro hc
        obtain rfl := Piece.char.inj hc
        exact hb.elim hlf hcr
    · exact ih q hq

/-- A piece that is a line feed is a line break, and no character of a text is one. -/
theorem Source.piecesOfChars_ne_lineFeed (cs : List Char) :
    ∀ q ∈ piecesOfChars cs, q ≠ .char '\n' := piecesOfChars_ne_break (.inl rfl) cs

end Brisk
