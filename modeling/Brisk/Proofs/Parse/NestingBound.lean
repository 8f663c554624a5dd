import Brisk.Proofs.Parse.FirstFault
import Brisk.Proofs.Parse.Limits
import Brisk.Proofs.Parse.TooDeep

/-!
# The limit on nesting is exact

A source that is parsed under some limit on nesting is parsed to the same program under every limit
that the nesting of the program keeps, and under any other one it is refused at the first token in
front of which a level is opened that is too deep (`Program.nesting_bound_exact`).

Which token that is does not depend on the parser. The marks of the program say where its levels are
opened, and the tokens of the source fill the places between them (`Program.FirstBeyond`).
-/

namespace Brisk.Program

variable {limits : Limits} {src : Source} {p : Program}

/-- Lexemes that a program is written with, up to the end of the file, and the first of them in
front of which a level is opened that is deeper than `max`. -/
inductive FirstBeyond (max : Nat) (p : Program) : List Lexeme → Lexeme → Prop where
  | intro {front back : List Mark} {level : Nat} {before after : List Lexeme} {l : Lexeme}
      {ts : List Token} (hmarks : p.marks = front ++ .opens level :: back)
      (hfront : Mark.deepest front ≤ max) (hlevel : max < level)
      (hbefore : Slot.Filled (Mark.slots front) (before.map (·.token)))
      (hbehind : Slot.Filled (Mark.slots back) ts)
      (htokens : (l :: after).map (·.token) = ts ++ [.endOfFile]) :
      FirstBeyond max p (before ++ l :: after) l

/-- A lower limit on nesting is kept, or exceeded at the first token with a level that is deeper. -/
theorem parse_or_firstBeyond (h : parse limits src = .ok p) {n : Nat} (hle : n ≤ limits.nesting) :
    (p.nesting ≤ n ∧ parse { limits with nesting := n } src = .ok p) ∨
      n < p.nesting ∧ ∃ ls l, Lexer.Yields ⟨limits, src, false⟩ ls ∧ p.FirstBeyond n ls l ∧
        parse { limits with nesting := n } src =
          .error (.invalid l.position (.nestingTooDeep n)) := by
  obtain ⟨first, src₁, s', hlexeme, hprogram⟩ := parse_eq_ok_iff.mp h
  have hclosed := Source.closed_lexemes first limits src₁
  obtain ⟨-, -, hend⟩ := Parse.program_sound limits.nesting hclosed hprogram
  obtain ⟨_, rfl, hmeets⟩ := Parse.program_tracks hle hclosed p s' hprogram
  -- The lexer gives both parsers the same tokens.
  have hlexeme' := (Source.lexeme_nesting n src).trans hlexeme
  have hlexemes : src₁.lexemes { limits with nesting := n } = src₁.lexemes limits :=
    Source.lexemes_nesting n src₁
  rw [← p.deepest_marks]
  cases hmeets with
  | within hpasses hdeepest hok =>
    -- All levels are within the bound.
    rw [← hlexemes] at hok
    exact .inl ⟨hdeepest, parse_eq_ok_iff.mpr ⟨first, src₁, s', hlexeme', hok⟩⟩
  | @beyond front back level s₁ s₂ hmarks hdeepest hlevel hfront hback herror =>
    refine .inr ⟨?_, ?_⟩
    · rw [hmarks, Mark.deepest_append, Mark.deepest_opens]
      omega
    -- The tokens up to the level that is too deep, and the others behind them, are what is lexed.
    obtain ⟨ts, hbefore, hreads⟩ := hfront
    obtain ⟨us, hbehind, hreads'⟩ := hback
    obtain ⟨ls, hyields, htokens⟩ :=
      Lexer.yields_of_reads (hreads.trans hreads') hend rfl hlexeme
    obtain ⟨before, after, rfl, rfl⟩ := hyields.append_of_reads hreads rfl hlexeme
    rw [List.map_append, List.append_assoc] at htokens
    refine ⟨_, s₁.current, hyields,
      .intro hmarks hdeepest hlevel hbefore hbehind (List.append_cancel_left htokens), ?_⟩
    rw [← hlexemes] at herror
    exact parse_eq_error_iff.mpr (.inr ⟨first, src₁, s₂, hlexeme', herror⟩)

/-- The limit on nesting is exact. A source that is parsed to a program is parsed to the same one
with a given limit on nesting if and only if the nesting of the program is at most the limit. If it
is not, the source is refused at the first token in front of which a deeper level is opened. -/
theorem nesting_bound_exact (h : parse limits src = .ok p) (n : Nat) :
    (parse { limits with nesting := n } src = .ok p ↔ p.nesting ≤ n) ∧
      (n < p.nesting → ∃ ls l, Lexer.Yields ⟨limits, src, false⟩ ls ∧ p.FirstBeyond n ls l ∧
        parse { limits with nesting := n } src =
          .error (.invalid l.position (.nestingTooDeep n))) := by
  rcases Nat.le_total n limits.nesting with hle | hle
  · rcases parse_or_firstBeyond h hle with ⟨hnesting, hok⟩ | ⟨hnesting, hbeyond⟩
    · exact ⟨⟨fun _ => hnesting, fun _ => hok⟩, fun hlt => absurd hnesting (by omega)⟩
    · refine ⟨⟨nesting_le_of_parse, fun hle => absurd hle (by omega)⟩, fun _ => hbeyond⟩
  · -- A wider limit on nesting is kept because the limit of the parsed source is.
    have hnesting : p.nesting ≤ n := Nat.le_trans (nesting_le_of_parse h) hle
    have hwide : limits ≤ { limits with nesting := n } :=
      ⟨Nat.le_refl _, Nat.le_refl _, Nat.le_refl _, hle⟩
    refine ⟨⟨fun _ => hnesting, fun _ => ?_⟩, fun hlt => absurd hnesting (by omega)⟩
    rcases parse_eq_or_exceeds hwide src with heq | ⟨e, he, -⟩
    · rw [← heq, h]
    · rw [h] at he
      exact absurd he (by simp)

/-- The statement of a conditional is in three levels, and what it has in parentheses in a
fourth. -/
theorem nesting_bound_exact_conditional :
    ∃ p ls l, parse .standard (.ofString "if (a) \x7b (b); \x7d") = .ok p ∧ p.nesting = 4 ∧
      parse ⟨1200, 1200, 1200, 4⟩ (.ofString "if (a) \x7b (b); \x7d") = .ok p ∧
      p.FirstBeyond 3 ls l ∧ l.position = ⟨1, 11⟩ ∧
      parse ⟨1200, 1200, 1200, 3⟩ (.ofString "if (a) \x7b (b); \x7d") =
        .error (.invalid l.position (.nestingTooDeep 3)) := by
  -- Within the standard limits, the block and the parentheses are the fourth level.
  have hparsed : ∃ p, parse .standard (.ofString "if (a) \x7b (b); \x7d") = .ok p ∧
      p.nesting = 4 := by
    have hnesting : (match parse .standard (.ofString "if (a) \x7b (b); \x7d") with
        | .ok p => p.nesting
        | .error _ => 0) = 4 := by
      decide +kernel
    cases h : parse .standard (.ofString "if (a) \x7b (b); \x7d") with
    | error e =>
      rw [h] at hnesting
      exact absurd hnesting (by simp)
    | ok p =>
      rw [h] at hnesting
      exact ⟨p, rfl, hnesting⟩
  have hrefused : (match parse ⟨1200, 1200, 1200, 3⟩ (.ofString "if (a) \x7b (b); \x7d") with
      | .ok _ => none
      | .error e => some e) = some (.invalid ⟨1, 11⟩ (.nestingTooDeep 3)) := by
    decide +kernel
  obtain ⟨p, h, hnesting⟩ := hparsed
  have hkept : parse ⟨1200, 1200, 1200, 4⟩ (.ofString "if (a) \x7b (b); \x7d") = .ok p :=
    (nesting_bound_exact h 4).1.mpr (Nat.le_of_eq hnesting)
  obtain ⟨ls, l, -, hfirst, hexceeded⟩ :=
    (nesting_bound_exact h 3).2 (Nat.lt_of_lt_of_eq (Nat.lt_succ_self 3) hnesting.symm)
  have herror : parse ⟨1200, 1200, 1200, 3⟩ (.ofString "if (a) \x7b (b); \x7d") =
      .error (.invalid l.position (.nestingTooDeep 3)) := hexceeded
  rw [herror] at hrefused
  have hposition := (ParseError.invalid.inj (Option.some.inj hrefused)).1
  exact ⟨p, ls, l, h, hnesting, hkept, hfirst, hposition, herror⟩

end Brisk.Program
