import Brisk.Proofs.Parse.Complete
import Brisk.Proofs.Parse.Sound
import Brisk.Proofs.Source.Lines
import Brisk.Proofs.Token.Stream
import Brisk.Proofs.Tree.Inner

/-!
# Parsing undoes writing

A source whose tokens are a writing of a well-formed program is parsed to that program
(`Program.parse_of_written`), and a source that is parsed to a program can be decoded as a whole and
has the tokens of the program, dollar signs aside (`Program.written_of_parse`).

Both follow from what the parsers do with a state, once the states are those of the lexer of the
source. That a well-formed program is determined by its tokens (`Program.eq_of_tokens_eq`) needs no
argument about trees: both programs would be read from the same tokens.
-/

namespace Brisk

/-! ## Programs and their tokens -/

namespace Parse

/-- A stream of given tokens, which all stand in one place. -/
def tokenStream (ts : List Token) : Lexemes :=
  ⟨ts.map fun t => .ok ⟨t, .start⟩, .ok ⟨.endOfFile, .start⟩⟩

/-- The state in front of given tokens. -/
def State.ofTokens : List Token → State
  | [] => ⟨⟨.endOfFile, .start⟩, tokenStream []⟩
  | t :: ts => ⟨⟨t, .start⟩, tokenStream ts⟩

/-- Tokens that are given end with the end of the source. -/
theorem State.closed_ofTokens (ts : List Token) : (State.ofTokens ts).Closed := by
  intro l hl
  cases ts <;> exact (congrArg Lexeme.token (Except.ok.inj hl)).symm

/-- Tokens that are given are read one after the other if the end of the source is not among
them. -/
theorem reads_ofTokens {ts : List Token} (h : ∀ t ∈ ts, t ≠ .endOfFile) :
    Reads (.ofTokens ts) ts (.ofTokens []) := by
  induction ts with
  | nil => exact .refl _
  | cons t ts ih =>
    have hrest := ih fun u hu => h u (List.mem_cons_of_mem t hu)
    cases ts with
    | nil => exact .head (h t List.mem_cons_self) rfl hrest
    | cons u us => exact .head (h t List.mem_cons_self) rfl hrest

end Parse

namespace Program

/-- A well-formed program is determined by its tokens. -/
theorem eq_of_tokens_eq {p q : Program} (hp : p.WellFormed) (hq : q.WellFormed)
    (h : p.tokens = q.tokens) : p = q := by
  have hparse : ∀ r : Program, r.WellFormed → r.nesting ≤ max p.nesting q.nesting →
      Parse.program (max p.nesting q.nesting) (.ofTokens r.tokens) = .ok r (.ofTokens []) := by
    intro r hr hnesting
    have hreads := Parse.reads_ofTokens fun t ht => (r.inner_slots t ht).1
    exact Parse.program_complete (Parse.State.closed_ofTokens _) hr hnesting
      ⟨r.tokens, Slot.Filled.of_tokens r.slots, hreads⟩ rfl
  have hparse₁ := hparse p hp (Nat.le_max_left _ _)
  have hparse₂ := hparse q hq (Nat.le_max_right _ _)
  rw [h, hparse₂] at hparse₁
  exact (EStateM.Result.ok.inj hparse₁).1.symm

/-- A source is parsed by scanning its first token and parsing from there. -/
theorem parse_eq_ok_iff {limits : Limits} {src : Source} {p : Program} :
    parse limits src = .ok p ↔ ∃ first src₁ s', src.lexeme limits = (.ok first, src₁) ∧
      Parse.program limits.nesting ⟨first, src₁.lexemes limits⟩ = .ok p s' := by
  unfold parse Parse.runOn
  rw [Source.lexemes_next]
  cases hlexeme : src.lexeme limits with
  | mk item src₁ =>
    cases item with
    | error e => simp
    | ok first =>
      simp only
      cases hprogram : Parse.program limits.nesting ⟨first, src₁.lexemes limits⟩ with
      | ok q s' =>
        constructor
        · -- The first lexeme is scanned, and the parser starts behind it.
          intro h
          obtain rfl := Except.ok.inj h
          exact ⟨first, src₁, s', rfl, hprogram⟩
        · intro h
          obtain ⟨first', src', s'', heq, h⟩ := h
          obtain ⟨hfirst, rfl⟩ := Prod.mk.inj heq
          obtain rfl := Except.ok.inj hfirst
          rw [hprogram] at h
          rw [(EStateM.Result.ok.inj h).1]
      | error e s' =>
        constructor
        · intro h
          exact absurd h (by simp)
        · intro h
          obtain ⟨first', src', s'', heq, h⟩ := h
          obtain ⟨hfirst, rfl⟩ := Prod.mk.inj heq
          obtain rfl := Except.ok.inj hfirst
          rw [hprogram] at h
          exact absurd h (by simp)

/-- Parsing fails with the error in the place of the first token, or with that of the parser. -/
theorem parse_eq_error_iff {limits : Limits} {src : Source} {e : ParseError} :
    parse limits src = .error e ↔ (∃ cause, (src.lexeme limits).1 = .error cause ∧ .lex cause = e) ∨
      ∃ first src₁ s', src.lexeme limits = (.ok first, src₁) ∧
        Parse.program limits.nesting ⟨first, src₁.lexemes limits⟩ = .error e s' := by
  unfold parse Parse.runOn
  rw [Source.lexemes_next]
  cases hlexeme : src.lexeme limits with
  | mk item src₁ =>
    cases item with
    | error cause => simp
    | ok first =>
      simp only
      constructor
      · intro h
        refine .inr ⟨first, src₁, ?_⟩
        cases hprogram : Parse.program limits.nesting ⟨first, src₁.lexemes limits⟩ with
        | ok q s' =>
          rw [hprogram] at h
          exact absurd h (by simp)
        | error e' s' =>
          rw [hprogram] at h
          exact ⟨s', rfl, by rw [Except.error.inj h]⟩
      · intro h
        obtain ⟨cause, hcause, -⟩ | ⟨first', src', s', heq, hprogram⟩ := h
        · exact absurd hcause (by simp)
        · obtain ⟨hfirst, rfl⟩ := Prod.mk.inj heq
          obtain rfl := Except.ok.inj hfirst
          rw [hprogram]

/-! ## What is written is parsed -/

/-- A source is parsed to a well-formed program that keeps the limit on nesting if its tokens are a
writing of the program: those of the program, with dollar signs in front of the targets of any of
its assignments. -/
theorem parse_of_written {limits : Limits} {src : Source} {p : Program} {ts : List Token}
    {ls : List Lexeme} (hwf : p.WellFormed) (hnesting : p.nesting ≤ limits.nesting)
    (hwritten : Slot.Filled p.slots ts) (hyields : Lexer.Yields ⟨limits, src, false⟩ ls)
    (htokens : ls.map (·.token) = ts ++ [.endOfFile]) : parse limits src = .ok p := by
  obtain ⟨first, src₁, s', hlexeme, hreads, hend⟩ := hyields.reads htokens
  have hprogram := Parse.program_complete (Source.closed_lexemes first limits src₁) hwf hnesting
    ⟨ts, hwritten, hreads⟩ hend
  exact parse_eq_ok_iff.mpr ⟨first, src₁, s', hlexeme, hprogram⟩

/-- An assignment with a dollar sign, and a product with a sum in parentheses. -/
theorem parse_of_written_assignment :
    ∃ ls, Lexer.Yields ⟨.standard, .ofString "$b = a * (1 + 2);", false⟩ ls ∧
      parse .standard (.ofString "$b = a * (1 + 2);") =
        .ok ⟨[.expression (.assign "b" (.binary .multiply (.name "a")
          (.paren (.binary .add (.literal (.int 1)) (.literal (.int 2))))))]⟩ := by
  have hlexed : (Source.ofString "$b = a * (1 + 2);").lexed .standard 17 =
      ([⟨.symbol .dollar, ⟨1, 1⟩⟩, ⟨.identifier "b", ⟨1, 2⟩⟩, ⟨.symbol .assign, ⟨1, 4⟩⟩,
        ⟨.identifier "a", ⟨1, 6⟩⟩, ⟨.symbol .star, ⟨1, 8⟩⟩, ⟨.symbol .leftParen, ⟨1, 10⟩⟩,
        ⟨.int 1, ⟨1, 11⟩⟩, ⟨.symbol .plus, ⟨1, 13⟩⟩, ⟨.int 2, ⟨1, 15⟩⟩,
        ⟨.symbol .rightParen, ⟨1, 16⟩⟩, ⟨.symbol .semicolon, ⟨1, 17⟩⟩] : List Lexeme).map .ok := by
    decide +kernel
  have hyields := Lexer.yields_of_lexed 17 (by decide +kernel) hlexed rfl
  refine ⟨_, hyields, ?_⟩
  refine parse_of_written ?_ (by decide) (.dollar (Slot.Filled.of_tokens _)) hyields rfl
  simp [WellFormed, Stmt.AllWellFormed, Stmt.WellFormed, Expr.WellFormed, Expr.level,
    BinaryOp.level]

/-! ## What is parsed was written -/

/-- A parsed source has a writing of the program as its tokens. -/
theorem filled_of_parse {limits : Limits} {src : Source} {p : Program}
    (h : parse limits src = .ok p) : p.WellFormed ∧ ∃ ts ls, Slot.Filled p.slots ts ∧
      Lexer.Yields ⟨limits, src, false⟩ ls ∧ ls.map (·.token) = ts ++ [.endOfFile] := by
  obtain ⟨first, src₁, s', hlexeme, hprogram⟩ := parse_eq_ok_iff.mp h
  obtain ⟨⟨ts, hfilled, hreads⟩, hwf, hend⟩ :=
    Parse.program_sound limits.nesting (Source.closed_lexemes first limits src₁) hprogram
  obtain ⟨ls, hyields, htokens⟩ := Lexer.yields_of_reads hreads hend rfl hlexeme
  exact ⟨hwf, ts, ls, hfilled, hyields, htokens⟩

/-- The tokens of a parsed source are those of the program, dollar signs aside. -/
theorem filter_tokens_of_parse {limits : Limits} {src : Source} {p : Program} {ls : List Lexeme}
    (h : parse limits src = .ok p) (hyields : Lexer.Yields ⟨limits, src, false⟩ ls) :
    (ls.map (·.token)).filter (· ≠ .symbol .dollar) = p.tokens ++ [.endOfFile] := by
  obtain ⟨-, ts, ls', hfilled, hyields', htokens⟩ := filled_of_parse h
  calc (ls.map (·.token)).filter (· ≠ .symbol .dollar)
      = (ts ++ [Token.endOfFile]).filter (· ≠ .symbol .dollar) := by
        rw [hyields.unique hyields', htokens]
    _ = ts.filter (· ≠ .symbol .dollar) ++ [Token.endOfFile] :=
        List.filter_append ts [.endOfFile]
    _ = p.tokens ++ [.endOfFile] := by
        rw [hfilled.filter_eq p.inner_slots]
        rfl

end Program

/-- A source that is read to its end without a failure is all that was delivered, and a text. -/
theorem Source.decoded_of_spells {bytes : List UInt8} {ending : Ending} {text : List Char}
    (h : Spells (ofBytes bytes ending).ahead text [])
    (hfailure : (ofBytes bytes ending).edge.failure = none) :
    ending = .endOfFile ∧ ∃ s, Text.ofBytes? bytes = some s := by
  -- Delivery that fails would be a failure of the source.
  have hending : ending = .endOfFile := by
    cases ending with
    | endOfFile => rfl
    | failing reason => exact absurd hfailure (by simp [ofBytes, ofPieces, Ending.failure])
    | garbled => exact absurd hfailure (by simp [ofBytes, ofPieces, Ending.failure])
  refine ⟨hending, ofBytes?_of_lines ?_⟩
  subst hending
  intro line hline
  -- A line that could not be decoded would be a piece that has no character.
  cases hs : Text.ofBytes? line with
  | some s => exact ⟨s, rfl⟩
  | none =>
    have hpieces : (ofBytes bytes .endOfFile).ahead.map (·.piece) =
        (lines bytes).flatMap piecesOfLine := map_piece_place _ _
    have hmem : Piece.undecodable ∈ (lines bytes).flatMap piecesOfLine := by
      refine List.mem_flatMap.mpr ⟨line, hline, ?_⟩
      unfold piecesOfLine
      rw [hs]
      exact List.mem_singleton_self _
    rw [← hpieces] at hmem
    obtain ⟨p, hp, hpiece⟩ := List.mem_map.mp hmem
    exact absurd hpiece (h.piece_ne_undecodable p hp)

namespace Program

/-- A source of bytes is only parsed to a program if it ends without a failure, is valid UTF-8 as a
whole and can be iterated over without an error. The program is well-formed, its integers and names
can be written, and the tokens of the source without its dollar signs are those of the program and
the end of the file. So two sources are parsed to the same program exactly when their tokens without
dollar signs are the same. -/
theorem written_of_parse {limits : Limits} {bytes : List UInt8} {ending : Source.Ending}
    {p : Program} (h : parse limits (.ofBytes bytes ending) = .ok p) :
    ending = .endOfFile ∧ (∃ s, Text.ofBytes? bytes = some s) ∧
      p.WellFormed ∧ (∀ t ∈ p.tokens, t.Lexical) ∧
      ∃ ls, Lexer.Yields ⟨limits, .ofBytes bytes ending, false⟩ ls ∧
        (ls.map (·.token)).filter (· ≠ .symbol .dollar) = p.tokens ++ [.endOfFile] ∧
        ∀ (limits' : Limits) (bytes' : List UInt8) (ending' : Source.Ending) (p' : Program)
          (ls' : List Lexeme), parse limits' (.ofBytes bytes' ending') = .ok p' →
          Lexer.Yields ⟨limits', .ofBytes bytes' ending', false⟩ ls' →
          (p = p' ↔ (ls.map (·.token)).filter (· ≠ .symbol .dollar) =
            (ls'.map (·.token)).filter (· ≠ .symbol .dollar)) := by
  obtain ⟨hwf, ts, ls, -, hyields, -⟩ := filled_of_parse h
  have htokens := filter_tokens_of_parse h hyields
  obtain ⟨⟨text, hspells⟩, hfailure⟩ := hyields.spells
  obtain ⟨hending, hdecoded⟩ := Source.decoded_of_spells hspells hfailure
  refine ⟨hending, hdecoded, hwf, ?_, ls, hyields, htokens, ?_⟩
  · -- Lexed tokens can be written, and those of the program are among them.
    intro t ht
    have hmem : t ∈ (ls.map (·.token)).filter (· ≠ .symbol .dollar) := by
      rw [htokens]
      exact List.mem_append_left _ ht
    obtain ⟨l, hl, rfl⟩ := List.mem_map.mp (List.mem_filter.mp hmem).1
    exact hyields.lexical l hl
  · -- Both programs are determined by their tokens, which are those of the sources.
    intro limits' bytes' ending' p' ls' h' hyields'
    obtain ⟨hwf', -⟩ := filled_of_parse h'
    rw [htokens, filter_tokens_of_parse h' hyields']
    constructor
    · rintro rfl
      rfl
    · intro heq
      exact eq_of_tokens_eq hwf hwf' (List.append_cancel_right heq)

/-- An assignment is parsed with and without a dollar sign. -/
theorem written_of_parse_assignment :
    ∃ p ls, parse .standard (.ofBytes (Text.bytes "$b = a;") .endOfFile) = .ok p ∧ p.WellFormed ∧
      Lexer.Yields ⟨.standard, .ofBytes (Text.bytes "$b = a;") .endOfFile, false⟩ ls ∧
      (ls.map (·.token)).filter (· ≠ .symbol .dollar) = p.tokens ++ [.endOfFile] := by
  have hok : (parse .standard (.ofBytes (Text.bytes "$b = a;") .endOfFile)).isOk = true := by
    decide +kernel
  cases h : parse .standard (.ofBytes (Text.bytes "$b = a;") .endOfFile) with
  | error e =>
    rw [h] at hok
    exact absurd hok Bool.false_ne_true
  | ok p =>
    obtain ⟨-, -, hwf, -, ls, hyields, htokens, -⟩ := written_of_parse h
    exact ⟨p, ls, rfl, hwf, hyields, htokens⟩

end Program

end Brisk
