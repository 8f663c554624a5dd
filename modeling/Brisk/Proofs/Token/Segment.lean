import Brisk.Proofs.Token.Scan
import Brisk.Token.Lexer

/-!
# The segments of a source

A source is a sequence of segments: blank characters, comments and tokens (`Segment`). `Fits` says
that a segment ends where it should in front of what follows it: a comment with its line or at the
first star and slash, and a token where no longer one could end, provided that no comment starts
there.

One scan skips segments that are no tokens and then takes a token or arrives at the end
(`Scan.lexeme_sound`). Skipping a comment is described apart from the skipping that goes on behind
it (`skipLine_ok`, `skipBlock_ok`), so the induction on the number of pieces that are left is only
needed once.
-/

namespace Brisk

/-- A part of a source: something between tokens, or a token. -/
inductive Segment where
  | blank (c : Char)
  | lineComment (content : List Char)
  | blockComment (content : List Char)
  | token (text : List Char) (t : Token)

/-- Whether a text starts with what opens a comment. -/
def OpensComment (text : List Char) : Prop := ['/', '/'] <+: text ∨ ['/', '*'] <+: text

namespace Segment

/-- How a segment stands in the source. -/
def text : Segment → List Char
  | blank c => [c]
  | lineComment content => '/' :: '/' :: content
  | blockComment content => '/' :: '*' :: (content ++ ['*', '/'])
  | token text _ => text

/-- How segments stand in the source one after another. -/
def texts (segments : List Segment) : List Char := segments.flatMap text

/-- No segments have no text. -/
@[simp]
theorem texts_nil : texts [] = [] := rfl

/-- Segments have their texts one behind the other. -/
@[simp]
theorem texts_cons (segment : Segment) (segments : List Segment) :
    texts (segment :: segments) = segment.text ++ texts segments := rfl

/-- Segments and further ones have their texts one behind the other. -/
@[simp]
theorem texts_append (segments segments' : List Segment) :
    texts (segments ++ segments') = texts segments ++ texts segments' := List.flatMap_append

/-- Whether a segment only separates tokens. -/
def IsGap : Segment → Prop
  | blank _ | lineComment _ | blockComment _ => True
  | token _ _ => False

/-- Whether a segment is what it is called, keeps its limit and ends where it should in front of the
text `after`. -/
def Fits (limits : Limits) (after : List Char) : Segment → Prop
  | blank c => Text.isBlank c = true
  | lineComment content =>
    '\n' ∉ content ∧ (∀ d, after.head? = some d → d = '\n') ∧ content.length ≤ limits.comment
  | blockComment content =>
    ¬['*', '/'] <:+: content ++ ['*'] ∧ content.length ≤ limits.comment
  | token text t =>
    t.Spelling text ∧ Longest text after ∧ ¬OpensComment (text ++ after) ∧ t.Within limits text

/-- Whether segments fit one after another, in front of the text `after`. -/
def AllFit (limits : Limits) (after : List Char) : List Segment → Prop
  | [] => True
  | segment :: segments =>
    segment.Fits limits (texts segments ++ after) ∧ AllFit limits after segments

/-- Segments that fit in front of others fit together with them. -/
theorem AllFit.append {limits : Limits} {after : List Char} {segments segments' : List Segment}
    (h : AllFit limits (texts segments' ++ after) segments) (h' : AllFit limits after segments') :
    AllFit limits after (segments ++ segments') := by
  induction segments with
  | nil => exact h'
  | cons segment segments ih =>
    obtain ⟨hfits, h⟩ := h
    rw [List.cons_append]
    refine ⟨?_, ih h⟩
    rw [texts_append, List.append_assoc]
    exact hfits

end Segment

/-- A character that breaks no line is a piece of its own. -/
theorem Piece.eq_char_of_char? {piece : Piece} {c : Char} (h : piece.char? = some c)
    (hc : c ≠ '\n') : piece = .char c := by
  cases piece with
  | char d => rw [Option.some.inj h]
  | lineBreak style => exact absurd (Option.some.inj h).symm hc
  | undecodable => exact absurd h (by simp [char?])

namespace Scan

variable {limits : Limits} {edge : Edge} {start : Position} {rest rest' : List Placed}
  {r : Option (Char × Position)}

/-! ## Comments -/

/-- A comment that ends with its line is skipped up to the line break, or to the end. -/
theorem skipLine_ok : ∀ (length : Nat) (rest : List Placed), length ≤ limits.comment →
    skipLine limits edge start length rest = (.ok r, rest') →
    ∃ content mid, Spells rest content mid ∧ (∀ d ∈ content, ∃ q ∈ rest, q.piece = .char d) ∧
      length + content.length ≤ limits.comment ∧
      ((mid = [] ∧ edge.failure = none ∧ r = none ∧ rest' = []) ∨
        ∃ p more, mid = p :: more ∧ p.piece.char? = some '\n' ∧
          skip limits edge more = (.ok r, rest'))
  | length, [], hlength, h => by
    unfold skipLine at h
    obtain ⟨hfailure, hr, hrest⟩ := atEdge_eq_ok_iff.mp h
    exact ⟨[], [], .nil [], by simp, hlength,
      .inl ⟨rfl, hfailure, (Except.ok.inj hr).symm, hrest⟩⟩
  | length, p :: rest, hlength, h => by
    unfold skipLine at h
    cases hp : p.piece with
    | undecodable =>
      rw [hp] at h
      exact absurd h error_ne_ok
    -- The line break ends the comment, and what is behind it is skipped.
    | lineBreak style =>
      rw [hp] at h
      exact ⟨[], p :: rest, .nil _, by simp, hlength,
        .inr ⟨p, rest, rfl, by rw [hp]; rfl, h⟩⟩
    | char c =>
      rw [hp] at h
      simp only at h
      split at h
      · exact absurd h error_ne_ok
      next hbound =>
      -- The limit is on the whole content, so the characters that were skipped are counted along.
      obtain ⟨content, mid, hspells, hchars, hle, hmid⟩ :=
        skipLine_ok (length + 1) rest (by omega) h
      refine ⟨c :: content, mid, .cons (by rw [hp]; rfl) hspells, ?_, ?_, hmid⟩
      · intro d hd
        rcases List.mem_cons.mp hd with rfl | hd
        · exact ⟨p, List.mem_cons_self, hp⟩
        · obtain ⟨q, hq, hqd⟩ := hchars d hd
          exact ⟨q, List.mem_cons_of_mem p hq, hqd⟩
      · rw [List.length_cons]
        omega

/-- The end of a comment does not stand in it when it is not at the front of it. -/
theorem not_infix_cons {c : Char} {content : List Char}
    (h : ¬['*', '/'] <:+: content ++ ['*']) (hc : c = '*' → (content ++ ['*']).head? ≠ some '/') :
    ¬['*', '/'] <:+: c :: content ++ ['*'] := by
  intro hinside
  rcases List.infix_cons_iff.mp hinside with hfront | hinside
  · obtain ⟨hstar, more, hmore⟩ := List.cons_prefix_cons.mp hfront
    have hhead : (content ++ ['*']).head? = (['/'] ++ more).head? := congrArg List.head? hmore.symm
    exact hc hstar.symm hhead
  · exact h hinside

/-- A comment that ends with a star and a slash is skipped up to the first of them. -/
theorem skipBlock_ok : ∀ (length : Nat) (rest : List Placed), length ≤ limits.comment →
    skipBlock limits edge start length rest = (.ok r, rest') →
    ∃ content more, Spells rest (content ++ ['*', '/']) more ∧
      ¬['*', '/'] <:+: content ++ ['*'] ∧ length + content.length ≤ limits.comment ∧
      skip limits edge more = (.ok r, rest')
  | length, [], _, h => by
    unfold skipBlock at h
    exact absurd (atEdge_eq_ok_iff.mp h).2.1 (by simp)
  | length, p :: rest, hlength, h => by
    unfold skipBlock at h
    split at h
    · exact absurd h error_ne_ok
    next hdecodable =>
    split at h
    · next hstar =>
      cases rest with
      -- At the end of the source the comment is not closed.
      | nil =>
        simp only at h
        split at h
        · exact absurd (atEdge_eq_ok_iff.mp h).2.1 (by simp)
        · exact absurd (atEdge_eq_ok_iff.mp h).2.1 (by simp)
      | cons q more =>
        simp only at h
        split at h
        · exact absurd h error_ne_ok
        split at h
        · next hslash =>
          -- The star closes the comment together with the slash behind it.
          refine ⟨[], more, ?_, ?_, hlength, h⟩
          · exact .cons (by rw [hstar]; rfl) (.single (by rw [hslash]; rfl))
          · intro hinside
            exact absurd hinside.length_le (by decide)
        next hslash =>
        split at h
        · exact absurd h error_ne_ok
        next hbound =>
        obtain ⟨content, behind, hspells, hinside, hle, hskip⟩ :=
          skipBlock_ok (length + 1) (q :: more) (by omega) h
        refine ⟨'*' :: content, behind, .cons (by rw [hstar]; rfl) hspells, ?_, ?_, hskip⟩
        · -- The star is content, so the end of the comment must not start with it.
          apply not_infix_cons hinside
          intro _ hhead
          -- The character behind the star is the one that the next piece is read as.
          have hfirst : ∃ d, (content ++ ['*']).head? = some d ∧ q.piece.char? = some d := by
            cases content with
            | nil =>
              obtain _ | ⟨hd, -⟩ := hspells
              exact ⟨'*', rfl, hd⟩
            | cons d content =>
              obtain _ | ⟨hd, -⟩ := hspells
              exact ⟨d, rfl, hd⟩
          obtain ⟨d, hd, hq⟩ := hfirst
          rw [hhead] at hd
          rw [← Option.some.inj hd] at hq
          exact hslash (Piece.eq_char_of_char? hq (by decide))
        · rw [List.length_cons]
          omega
    next hstar =>
    split at h
    · exact absurd h error_ne_ok
    next hbound =>
    obtain ⟨content, behind, hspells, hinside, hle, hskip⟩ :=
      skipBlock_ok (length + 1) rest (by omega) h
    -- What can be decoded has a character.
    obtain ⟨c, hc⟩ : ∃ c, p.piece.char? = some c := by
      cases hp : p.piece with
      | char c => exact ⟨c, rfl⟩
      | lineBreak style => exact ⟨'\n', rfl⟩
      | undecodable => exact absurd hp hdecodable
    refine ⟨c :: content, behind, .cons hc hspells, ?_, ?_, hskip⟩
    · -- What is not a star does not start the end of the comment.
      apply not_infix_cons hinside
      rintro rfl
      exact absurd (Piece.eq_char_of_char? hc (by decide)) hstar
    · rw [List.length_cons]
      omega

/-! ## Everything that is skipped -/

/-- Where skipping ends: at the end of the source, or behind the first character of a token. -/
inductive Arrives (edge : Edge) : List Placed → Option (Char × Position) → List Placed → Prop where
  | stop (hfailure : edge.failure = none) : Arrives edge [] none []
  | found {c : Char} {start : Position} {rest : List Placed}
      (hcomment : ∀ after, Spells rest after [] → ¬OpensComment (c :: after)) :
      Arrives edge (⟨.char c, start⟩ :: rest) (some (c, start)) rest

/-- What has been skipped are segments that fit, up to where skipping ends. -/
def Skips (limits : Limits) (edge : Edge) (rest : List Placed) (r : Option (Char × Position))
    (rest' : List Placed) : Prop :=
  ∃ gap mid, Spells rest (Segment.texts gap) mid ∧ (∀ segment ∈ gap, segment.IsGap) ∧
    Arrives edge mid r rest' ∧ ((∀ q ∈ rest, q.piece ≠ .char '\n') →
      ∀ after, Spells mid after [] → Segment.AllFit limits after gap)

/-- A segment in front of what is skipped is skipped too. -/
theorem Skips.cons {s : Segment} {more : List Placed} (hgap : s.IsGap)
    (hspells : Spells rest s.text more)
    (hfits : (∀ q ∈ rest, q.piece ≠ .char '\n') → ∀ after, Spells more after [] →
      s.Fits limits after)
    (h : Skips limits edge more r rest') : Skips limits edge rest r rest' := by
  obtain ⟨gap, mid, hspells', hgaps, harrives, hfit⟩ := h
  refine ⟨s :: gap, mid, hspells.append hspells', ?_, harrives, ?_⟩
  · intro s' hs'
    rcases List.mem_cons.mp hs' with rfl | hs'
    · exact hgap
    · exact hgaps s' hs'
  · intro hpieces after hafter
    have hpieces' : ∀ q ∈ more, q.piece ≠ .char '\n' :=
      fun q hq => hpieces q (hspells.suffix.mem hq)
    exact ⟨hfits hpieces _ (hspells'.append hafter), hfit hpieces' after hafter⟩

/-- Nothing more is skipped in front of a token. -/
theorem Skips.of_arrives (h : Arrives edge rest r rest') : Skips limits edge rest r rest' :=
  ⟨[], rest, .nil rest, by simp, h, fun _ _ _ => trivial⟩

/-- A line break is skipped like a blank character. -/
theorem Skips.lineBreak {p : Placed} (hp : p.piece.char? = some '\n')
    (h : Skips limits edge rest r rest') : Skips limits edge (p :: rest) r rest' := by
  refine Skips.cons (s := .blank '\n') trivial (.single hp) ?_ h
  intro _ _ _
  show Text.isBlank '\n' = true
  decide

section Comments

variable {n : Nat} {q : Placed} {more : List Placed}
  (ih : ∀ rest : List Placed, rest.length ≤ n → skip limits edge rest = (.ok r, rest') →
    Skips limits edge rest r rest')
include ih

/-- A comment that ends with its line is skipped, and so is the line break behind it, if there is
one. -/
theorem skipLine_sound (hq : q.piece = .char '/') (hlength : more.length ≤ n)
    (h : skipLine limits edge start 0 more = (.ok r, rest')) (position : Position) :
    Skips limits edge (⟨.char '/', position⟩ :: q :: more) r rest' := by
  obtain ⟨content, mid, hspells, hchars, hle, hmid⟩ := skipLine_ok 0 more (Nat.zero_le _) h
  have hlen := hspells.length_add_length
  have hspells' : Spells (⟨.char '/', position⟩ :: q :: more)
      (Segment.lineComment content).text mid :=
    .cons rfl (.cons (by rw [hq]; rfl) hspells)
  refine Skips.cons (s := .lineComment content) trivial hspells' ?_ ?_
  · -- The content holds pieces that are characters of a line, so none of them is a line feed, and
    -- the character behind it is the line break at which skipping stopped.
    intro hpieces after hafter
    refine ⟨?_, ?_, by omega⟩
    · intro hmem
      obtain ⟨q', hq', hpiece⟩ := hchars '\n' hmem
      exact hpieces q' (List.mem_cons_of_mem _ (List.mem_cons_of_mem _ hq')) hpiece
    · intro d hd
      obtain ⟨p, behind, rfl, hd⟩ := spells_next_iff.mp (hafter.head?_eq_some_iff.mp hd)
      rcases hmid with ⟨hnil, -⟩ | ⟨p', behind', heq, hbreak, -⟩
      · exact absurd hnil (List.cons_ne_nil p behind)
      · rw [(List.cons.inj heq).1, hbreak] at hd
        exact (Option.some.inj hd).symm
  · rcases hmid with ⟨rfl, hfailure, rfl, rfl⟩ | ⟨p, behind, rfl, hbreak, hskip⟩
    · exact .of_arrives (.stop hfailure)
    · rw [List.length_cons] at hlen
      exact .lineBreak hbreak (ih behind (by omega) hskip)

/-- A comment that ends with a star and a slash is skipped. -/
theorem skipBlock_sound (hq : q.piece = .char '*') (hlength : more.length ≤ n)
    (h : skipBlock limits edge start 0 more = (.ok r, rest')) (position : Position) :
    Skips limits edge (⟨.char '/', position⟩ :: q :: more) r rest' := by
  obtain ⟨content, behind, hspells, hinside, hle, hskip⟩ := skipBlock_ok 0 more (Nat.zero_le _) h
  have hlen := hspells.length_add_length
  have hspells' : Spells (⟨.char '/', position⟩ :: q :: more)
      (Segment.blockComment content).text behind :=
    .cons rfl (.cons (by rw [hq]; rfl) hspells)
  refine Skips.cons (s := .blockComment content) trivial hspells' ?_ (ih behind (by omega) hskip)
  intro _ _ _
  exact ⟨hinside, by omega⟩

end Comments

/-- A slash that neither a second one nor a star follows opens no comment. -/
theorem not_opensComment_of_next {c : Char} (h : c = '/' → ∀ q more, rest = q :: more →
    q.piece ≠ .char '/' ∧ q.piece ≠ .char '*') :
    ∀ after, Spells rest after [] → ¬OpensComment (c :: after) := by
  intro after hafter hopens
  have hsecond : ∃ d, (d = '/' ∨ d = '*') ∧ c = '/' ∧ after.head? = some d := by
    rcases hopens with hopens | hopens
    · obtain ⟨hc, more, hmore⟩ := List.cons_prefix_cons.mp hopens
      exact ⟨'/', .inl rfl, hc.symm, by rw [← hmore]; rfl⟩
    · obtain ⟨hc, more, hmore⟩ := List.cons_prefix_cons.mp hopens
      exact ⟨'*', .inr rfl, hc.symm, by rw [← hmore]; rfl⟩
  obtain ⟨d, hd, hc, hhead⟩ := hsecond
  obtain ⟨q, more, hrest, hq⟩ := spells_next_iff.mp (hafter.head?_eq_some_iff.mp hhead)
  obtain ⟨hslash, hstar⟩ := h hc q more hrest
  rcases hd with rfl | rfl
  · exact hslash (Piece.eq_char_of_char? hq (by decide))
  · exact hstar (Piece.eq_char_of_char? hq (by decide))

/-- What is skipped consists of blanks and comments, each of which ends where the next one
starts. -/
theorem skip_sound (n : Nat) : ∀ rest : List Placed, rest.length ≤ n →
    skip limits edge rest = (.ok r, rest') → Skips limits edge rest r rest' := by
  have hend : skip limits edge [] = (.ok r, rest') → Skips limits edge [] r rest' := by
    intro h
    unfold skip at h
    obtain ⟨hfailure, hr, rfl⟩ := atEdge_eq_ok_iff.mp h
    rw [← Except.ok.inj hr]
    exact .of_arrives (.stop hfailure)
  -- By induction on a bound of the number of pieces: behind a comment, skipping goes on further
  -- down the list than at the next piece.
  induction n with
  | zero =>
    intro rest hlength h
    obtain rfl := List.length_eq_zero_iff.mp (Nat.le_zero.mp hlength)
    exact hend h
  | succ n ih =>
    intro rest hlength h
    obtain _ | ⟨⟨piece, start⟩, rest⟩ := rest
    · exact hend h
    rw [List.length_cons] at hlength
    unfold skip at h
    cases piece with
    | undecodable => exact absurd h error_ne_ok
    | lineBreak style => exact .lineBreak rfl (ih rest (by omega) h)
    | char c =>
      simp only at h
      split at h
      · next hblank =>
        exact Skips.cons (s := .blank c) trivial (.single rfl) (fun _ _ _ => hblank)
          (ih rest (by omega) h)
      -- If no comment starts here, the character is the first one of a token.
      have hfound : (c = '/' → ∀ q more, rest = q :: more →
          q.piece ≠ .char '/' ∧ q.piece ≠ .char '*') →
          ((.ok (some (c, start)), rest) : Outcome (Option (Char × Position))) = (.ok r, rest') →
          Skips limits edge (⟨.char c, start⟩ :: rest) r rest' := by
        intro hnext heq
        obtain ⟨hr, rfl⟩ := Prod.mk.inj heq
        rw [← Except.ok.inj hr]
        exact .of_arrives (.found (not_opensComment_of_next hnext))
      split at h
      · next hslash =>
        subst hslash
        cases rest with
        | nil => exact hfound (by simp) h
        | cons q more =>
          rw [List.length_cons] at hlength
          simp only at h
          split at h
          · next hline => exact skipLine_sound ih hline (by omega) h start
          next hline =>
          split at h
          · next hblock => exact skipBlock_sound ih hblock (by omega) h start
          next hblock =>
          refine hfound ?_ h
          intro _ q' more' heq
          rw [← (List.cons.inj heq).1]
          exact ⟨hline, hblock⟩
      next hslash => exact hfound (fun hc => absurd hc hslash) h

/-! ## One scan -/

/-- What one scan has taken: segments between tokens, and then a token or the end of the source. -/
def Takes (limits : Limits) (edge : Edge) (rest : List Placed) (l : Lexeme)
    (rest' : List Placed) : Prop :=
  ∃ gap mid, Spells rest (Segment.texts gap) mid ∧ (∀ segment ∈ gap, segment.IsGap) ∧
    ((∀ q ∈ rest, q.piece ≠ .char '\n') →
      ∀ after, Spells mid after [] → Segment.AllFit limits after gap) ∧
    ((edge.failure = none ∧ mid = [] ∧ rest' = [] ∧ l = ⟨.endOfFile, edge.position⟩) ∨
      ∃ c more text, mid = ⟨.char c, l.position⟩ :: more ∧
        Scanned limits c text more l.token rest' ∧
        ∀ after, Spells more after [] → ¬OpensComment (c :: after))

/-- What is taken of a source to find a lexeme consists of blanks, comments and the text of its
token. -/
theorem lexeme_sound {l : Lexeme} (h : lexeme limits edge rest = (.ok l, rest')) :
    Takes limits edge rest l rest' := by
  unfold lexeme at h
  split at h
  · exact absurd h error_ne_ok
  · next more hskip =>
    obtain ⟨gap, mid, hspells, hgap, harrives, hfit⟩ :=
      skip_sound rest.length rest (Nat.le_refl _) hskip
    obtain ⟨hl, rfl⟩ := Prod.mk.inj h
    obtain ⟨hfailure⟩ := harrives
    exact ⟨gap, [], hspells, hgap, hfit, .inl ⟨hfailure, rfl, rfl, (Except.ok.inj hl).symm⟩⟩
  · next c start more hskip =>
    obtain ⟨gap, mid, hspells, hgap, harrives, hfit⟩ :=
      skip_sound rest.length rest (Nat.le_refl _) hskip
    obtain _ | hcomment := harrives
    simp only at h
    cases htoken : token limits edge start c more with
    | mk result behind =>
      rw [htoken] at h
      obtain ⟨hl, rfl⟩ := Prod.mk.inj h
      cases result with
      | error e => exact absurd hl (by simp [Except.map])
      | ok t =>
        obtain rfl := Except.ok.inj hl
        obtain ⟨text, hscanned⟩ := token_sound htoken
        exact ⟨gap, _, hspells, hgap, hfit, .inr ⟨c, more, text, rfl, hscanned, hcomment⟩⟩

end Scan

end Brisk
