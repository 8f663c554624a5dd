import Brisk.Proofs.Parse.Capped
import Brisk.Proofs.Parse.Decision.Statement
import Brisk.Proofs.Parse.Program
import Brisk.Proofs.Token.Refusal

/-!
# Limits only refuse

With wider limits a source is parsed to the same program, or refused with the same error, unless the
narrower limits are exceeded; and then the error says so (`Program.parse_filters`).

There are two runs to compare, which differ in the limit on nesting and in the stream of tokens. The
first difference is that of two parsers in one state (`program_capped`). For the second, the tokens
that the parser consumes under narrower limits are there under wider ones too, and they decide what
it does (`Decided`): the streams agree up to the first scan that the narrower limits refuse.
-/

namespace Brisk

/-- Whether an error is that one of the limits is exceeded. -/
def ParseError.Exceeds (limits : Limits) : ParseError → Prop
  | lex cause => cause.Exceeds limits
  | invalid _ (.nestingTooDeep max) => max = limits.nesting
  | invalid _ _ => False

namespace Parse

variable {α : Type} {limits limits' : Limits}

/-- The state that looks at a lexeme in front of a source. -/
abbrev State.before (l : Lexeme) (limits : Limits) (src : Source) : State :=
  ⟨l, src.lexemes limits⟩

/-- What is consumed under limits is consumed under wider ones too. -/
theorem Reads.widen (h : limits ≤ limits') {s s' : State} {ts : List Token}
    (hreads : Reads s ts s') : ∀ (l : Lexeme) (src : Source), s = .before l limits src →
      ∃ l' src', s' = .before l' limits src' ∧
        Reads (.before l limits' src) ts (.before l' limits' src') := by
  induction hreads with
  | refl s =>
    rintro l src rfl
    exact ⟨l, src, rfl, .refl _⟩
  | @head s s' next ahead ts hne hnext _ ih =>
    rintro l src rfl
    rw [Source.lexemes_next] at hnext
    obtain ⟨hfirst, rfl⟩ := Prod.mk.inj hnext
    -- A lexeme that has been scanned within the narrower limits is the same within the wider ones.
    rcases Source.lexeme_filters h src with heq | ⟨e, herror, -⟩
    · obtain ⟨l', src', rfl, hreads'⟩ := ih next _ rfl
      refine ⟨l', src', rfl, .head hne ?_ hreads'⟩
      rw [Source.lexemes_next, ← heq, hfirst]
    · rw [hfirst] at herror
      exact absurd herror (by simp)

/-- A refusal is the same under wider limits, unless the limits are exceeded behind the token. -/
theorem Refusal.error?_filters (h : limits ≤ limits') (x : Refusal) (l : Lexeme) (src : Source)
    {e : ParseError} (he : x.error? (.before l limits src) = some e) :
    x.error? (.before l limits' src) = some e ∨ e.Exceeds limits := by
  have hnext : (src.lexeme limits).1 = (src.lexeme limits').1 ∨
      ∃ cause, (src.lexeme limits).1 = .error cause ∧ cause.Exceeds limits := by
    rcases Source.lexeme_filters h src with heq | hexceeds
    · exact .inl (by rw [heq])
    · exact .inr hexceeds
  cases x with
  -- A fault that looks no further is the same in both.
  | fault f =>
    simp only [error?] at he ⊢
    exact .inl he
  | later | missing =>
    rw [error?, Source.lexemes_next] at he
    rcases hnext with heq | ⟨cause, hcause, hexceeds⟩
    · refine .inl ?_
      rwa [error?, Source.lexemes_next, ← heq]
    · rw [hcause] at he
      cases he
      exact .inr hexceeds

/-- A decided parser does the same under wider limits, unless the limits are exceeded. -/
theorem Decided.filters {p : Parse α} {V : List Token → Prop} (h : limits ≤ limits') {l : Lexeme}
    {src : Source} (hp : Decided p V (.before l limits src)) :
    (∃ a s s', p (.before l limits src) = .ok a s ∧ p (.before l limits' src) = .ok a s') ∨
      (∃ e s s', p (.before l limits src) = .error e s ∧ p (.before l limits' src) = .error e s') ∨
      ∃ e s, p (.before l limits src) = .error e s ∧ e.Exceeds limits := by
  have hclosed := Source.closed_lexemes l limits src
  have hclosed' := Source.closed_lexemes l limits' src
  cases hp with
  | accepts a hreads haccepts =>
    -- What has been accepted is accepted with the wider limits, on the same tokens.
    obtain ⟨l', src', rfl, hreads'⟩ := hreads.widen h l src rfl
    exact .inl ⟨a, _, _, haccepts _ _ hclosed hreads rfl, haccepts _ _ hclosed' hreads' rfl⟩
  | refuses x hreads herror hbegins hrefuses =>
    -- What has been refused is refused alike, or the next lexeme exceeds a narrower limit.
    obtain ⟨l', src', rfl, hreads'⟩ := hreads.widen h l src rfl
    obtain ⟨e, he⟩ := Option.ne_none_iff_exists'.mp herror
    obtain ⟨s, hs⟩ := hrefuses _ _ e hclosed hreads rfl he
    rcases x.error?_filters h l' src' he with he' | hexceeds
    · obtain ⟨s', hs'⟩ := hrefuses _ _ e hclosed' hreads' rfl he'
      exact .inr (.inl ⟨e, s, s', hs, hs'⟩)
    · exact .inr (.inr ⟨e, s, hs, hexceeds⟩)

end Parse

namespace Program

open Parse (State)

variable {limits limits' : Limits}

/-- A source is parsed alike under wider limits, unless the limits are exceeded. -/
theorem parse_eq_or_exceeds (h : limits ≤ limits') (src : Source) :
    parse limits src = parse limits' src ∨ ∃ e, parse limits src = .error e ∧ e.Exceeds limits := by
  rcases Source.lexeme_filters h src with hlexeme | ⟨cause, hcause, hexceeds⟩
  · cases hfirst : src.lexeme limits with
    | mk item src₁ =>
      have hfirst' := hlexeme.symm.trans hfirst
      cases item with
      -- The same fault stands in front of the first token.
      | error cause =>
        refine .inl ?_
        rw [parse_eq_error_iff.mpr (.inl ⟨cause, by rw [hfirst], rfl⟩),
          parse_eq_error_iff.mpr (.inl ⟨cause, by rw [hfirst'], rfl⟩)]
      | ok first =>
        -- The parser with the wider limit on nesting is compared on both streams.
        have hdecided := Parse.program_decided limits'.nesting
          (Source.closed_lexemes first limits src₁)
        rcases Parse.program_capped h.2.2.2 (.before first limits src₁) with
          hsame | ⟨position, s, herror⟩
        · rcases hdecided.filters h with ⟨p, s, s', hp, hp'⟩ | ⟨e, s, s', he, he'⟩ |
            ⟨e, s, he, hexceeds⟩
          · -- Accepted with both limits.
            rw [← hsame] at hp
            refine .inl ?_
            rw [parse_eq_ok_iff.mpr ⟨first, src₁, s, hfirst, hp⟩,
              parse_eq_ok_iff.mpr ⟨first, src₁, s', hfirst', hp'⟩]
          · -- Refused alike with both limits.
            rw [← hsame] at he
            refine .inl ?_
            rw [parse_eq_error_iff.mpr (.inr ⟨first, src₁, s, hfirst, he⟩),
              parse_eq_error_iff.mpr (.inr ⟨first, src₁, s', hfirst', he'⟩)]
          · rw [← hsame] at he
            exact .inr ⟨e, parse_eq_error_iff.mpr (.inr ⟨first, src₁, s, hfirst, he⟩), hexceeds⟩
        · -- A level too deep is the narrower limit's own error.
          exact .inr ⟨_, parse_eq_error_iff.mpr (.inr ⟨first, src₁, s, hfirst, herror⟩), rfl⟩
  · -- The first lexeme is refused by a narrower limit.
    exact .inr ⟨_, parse_eq_error_iff.mpr (.inl ⟨cause, hcause, rfl⟩), hexceeds⟩

/-- Limits refuse, and change nothing else. Under wider limits a source is parsed to the same
program, or refused with the same error, unless the error is that one of the narrower limits is
exceeded, and then it names the bound. So what is accepted stays accepted as the same program, and
every other error stays as it is. -/
theorem parse_filters (h : limits ≤ limits') (src : Source) :
    (parse limits src = parse limits' src ∨
      ∃ e, parse limits src = .error e ∧ e.Exceeds limits) ∧
    (∀ p, parse limits src = .ok p → parse limits' src = .ok p) ∧
    ∀ e, parse limits src = .error e → ¬e.Exceeds limits → parse limits' src = .error e := by
  have hsame := parse_eq_or_exceeds h src
  refine ⟨hsame, fun p hp => ?_, fun e he hother => ?_⟩
  · -- An accepted source is not refused by any limit.
    rcases hsame with heq | ⟨e, he, -⟩
    · rw [← heq, hp]
    · rw [hp] at he
      exact absurd he (by simp)
  · -- An error that is no limit's own is the same.
    rcases hsame with heq | ⟨e', he', hexceeds⟩
    · rw [← heq, he]
    · rw [he] at he'
      rw [← Except.error.inj he'] at hexceeds
      exact absurd hexceeds hother

/-- A source that needs three levels is refused for its nesting when there are two. -/
theorem parse_filters_parentheses :
    (⟨1200, 1200, 1200, 2⟩ : Limits) ≤ .standard ∧
      ∃ e, parse ⟨1200, 1200, 1200, 2⟩ (.ofString "((a));") = .error e ∧
        e.Exceeds ⟨1200, 1200, 1200, 2⟩ := by
  have hle : (⟨1200, 1200, 1200, 2⟩ : Limits) ≤ .standard := by decide
  refine ⟨hle, (parse_filters hle _).1.resolve_left fun heq => ?_⟩
  have hrefused : (parse ⟨1200, 1200, 1200, 2⟩ (.ofString "((a));")).isOk = false := by
    decide +kernel
  have haccepted : (parse .standard (.ofString "((a));")).isOk = true := by decide +kernel
  rw [heq, haccepted] at hrefused
  exact absurd hrefused (by decide)

end Program

end Brisk
