import Brisk.Proofs.Parse.Capped
import Brisk.Proofs.Parse.Decision.Statement
import Brisk.Proofs.Parse.Program
import Brisk.Proofs.Token.Requests
import Brisk.Proofs.Token.Sources

/-!
# Faults are at the first token that cannot be right

When a source is refused for a fault of a token, apart from the limit on nesting, the fault is at
the first token that cannot be right (`Program.first_fault`). The tokens in front of it are a prefix
of those of a source that is accepted (`Program.Extendable`), and together with it they are not.

The first part is what the parser has consumed: it begins a well-formed program, the rest of which
is made of tokens that can be spelt, so there is a source with these tokens and it is accepted. The
second part is that the parser is decided by what it reads. On any other source with these tokens in
front it refuses the same token.
-/

namespace Brisk

/-! ## The lexemes that are read -/

namespace Lexer.Yields

variable {limits : Limits} {src src₁ : Source} {ls : List Lexeme}

/-- The lexemes of an iteration stand one behind another. -/
theorem sorted {start : Position} (hlaid : Laid src.edge.position start src.ahead)
    (h : Yields ⟨limits, src, false⟩ ls) :
    ls.Pairwise (fun l l' => l.position < l'.position) ∧ ∀ l ∈ ls, start ≤ l.position := by
  induction ls generalizing src start with
  | nil => exact absurd rfl h.ne_nil
  | cons l ls ih =>
    obtain ⟨l', src', hl, ⟨hend, hls⟩ | ⟨hne, ls', hls, hrest⟩⟩ := yields_iff.mp h
    all_goals
      obtain ⟨rfl, rfl⟩ := List.cons.inj hls
      obtain ⟨hscan, hedge⟩ := Source.lexeme_eq_ok_iff.mp hl
    · -- The end of the source is the only lexeme, at the place that the text has come to.
      obtain ⟨-, -, hplace⟩ := Scan.eq_nil_of_endOfFile hscan hend
      refine ⟨List.pairwise_singleton _ _, fun l' hl' => ?_⟩
      rw [List.mem_singleton.mp hl', hplace]
      exact hlaid.le
    · -- The first lexeme takes a character at its place, and the others come behind that.
      have hplace : Scan.lexemePlace? (Scan.lexeme limits src.edge src.ahead).1 =
          some l.position := by
        rw [hscan]
        exact if_neg hne
      have hconsumes := Scan.lexeme_consumes hplace
      rw [hscan] at hconsumes
      obtain ⟨hle, p, hlaid', hlt⟩ := hconsumes.lt hlaid
      rw [← hedge] at hlaid'
      obtain ⟨hsorted, hbehind⟩ := ih hlaid' hrest
      refine ⟨List.pairwise_cons.mpr ⟨fun l' hl' => ?_, hsorted⟩, fun l' hl' => ?_⟩
      · exact Position.lt_of_lt_of_le hlt (hbehind l' hl')
      · rcases List.mem_cons.mp hl' with rfl | hl'
        · exact hle
        · exact Position.le_trans hle (.inl (Position.lt_of_lt_of_le hlt (hbehind l' hl')))

/-- Where tokens are consumed from the stream of a source, an iteration gives them, and then the
lexeme that is looked at. -/
theorem append_of_reads {s s' : Parse.State} {ts : List Token} (h : Parse.Reads s ts s')
    (hs : s.ahead = src₁.lexemes limits) (hl : src.lexeme limits = (.ok s.current, src₁))
    (hyields : Yields ⟨limits, src, false⟩ ls) :
    ∃ before after, ls = before ++ s'.current :: after ∧ before.map (·.token) = ts := by
  induction h generalizing src src₁ ls with
  | refl s =>
    -- Nothing has been read, so the token in front is the first one.
    obtain ⟨l, src', hl', hls⟩ := yields_iff.mp hyields
    rw [hl] at hl'
    obtain rfl := Except.ok.inj (Prod.mk.inj hl').1
    rcases hls with ⟨-, rfl⟩ | ⟨-, ls', rfl, -⟩
    · exact ⟨[], [], rfl, rfl⟩
    · exact ⟨[], ls', rfl, rfl⟩
  | @head s s' second ahead ts hne hnext _ ih =>
    obtain ⟨l, src', hl', hls⟩ := yields_iff.mp hyields
    rw [hl] at hl'
    obtain ⟨heq, rfl⟩ := Prod.mk.inj hl'
    obtain rfl := Except.ok.inj heq
    rcases hls with ⟨hend, -⟩ | ⟨-, ls', rfl, hrest⟩
    · -- The token that has been read is not the end of the source, so the lexer went on behind it.
      exact absurd hend hne
    · rw [hs, Source.lexemes_next] at hnext
      obtain ⟨hsecond, hahead⟩ := Prod.mk.inj hnext
      obtain ⟨before, after, rfl, hbefore⟩ := ih hahead.symm (Prod.ext hsecond rfl) hrest
      exact ⟨s.current :: before, after, rfl, by rw [List.map_cons, hbefore]⟩

end Lexer.Yields

/-! ## Refusals -/

namespace Parse.Refusal

variable {x : Refusal} {s : State} {position : Position} {fault : ParseFault}

/-- A fault is at the token that is refused, and a judgement on it unless it is about nesting. -/
theorem of_invalid (h : x.error? s = some (.invalid position fault)) :
    s.current.position = position ∧ ((∀ max, fault ≠ .nestingTooDeep max) → x.Judges) := by
  cases x with
  | fault f =>
    rw [error?] at h
    cases h
    exact ⟨rfl, id⟩
  -- The fault stands at the token in front, if another token follows it.
  | later f =>
    rw [error?] at h
    split at h
    · cases h
      exact ⟨rfl, id⟩
    · exact absurd h (by simp)
  | missing =>
    rw [error?] at h
    split at h <;> exact absurd h (by simp)

/-- A judgement on a token refuses it in every state, and not for its nesting. -/
theorem Judges.exists_error (h : x.Judges) (s : State) :
    ∃ e, x.error? s = some e ∧ ∀ position max, e ≠ .invalid position (.nestingTooDeep max) := by
  cases x with
  | fault f =>
    refine ⟨_, rfl, ?_⟩
    rintro position max heq
    exact h max (ParseError.invalid.inj heq).2
  | later f =>
    rw [error?]
    split
    · refine ⟨_, rfl, ?_⟩
      rintro position max heq
      exact h max (ParseError.invalid.inj heq).2
    · exact ⟨_, rfl, by simp⟩
  | missing => exact h.elim

end Parse.Refusal

namespace Program

open Parse (Viable Reads)

variable {limits limits' : Limits} {src src' : Source} {ls : List Lexeme} {ts : List Token}

/-! ## Sources that are accepted -/

/-- Whether tokens are those of a source that is accepted under all limits that are wide enough. -/
def Accepted (ts : List Token) : Prop :=
  ∃ limits bytes, ∀ limits', limits ≤ limits' →
    ∃ p ls, parse limits' (.ofBytes bytes .endOfFile) = .ok p ∧
      Lexer.Yields ⟨limits', .ofBytes bytes .endOfFile, false⟩ ls ∧
      ls.map (·.token) = ts ++ [.endOfFile]

/-- Whether tokens are a prefix of those of a source that is accepted. -/
def Extendable (ts : List Token) : Prop := ∃ us, Accepted (ts ++ us)

/-- The writings of a well-formed program are accepted if their tokens can be spelt. -/
theorem accepted_of_filled {p : Program} (hwf : p.WellFormed) (hfilled : Slot.Filled p.slots ts)
    (hspellable : ∀ t ∈ ts, t.Spellable) : Accepted ts := by
  obtain ⟨limits, bytes, hyields⟩ := Lexer.exists_yields hspellable
  obtain ⟨wide, hle, hnesting⟩ := Limits.exists_le_le limits ⟨0, 0, 0, p.nesting⟩
  refine ⟨wide, bytes, fun limits' hwide => ?_⟩
  obtain ⟨ls, hls, htokens⟩ := hyields limits' (Limits.le_trans hle hwide)
  have hnesting' : p.nesting ≤ limits'.nesting := (Limits.le_trans hnesting hwide).2.2.2
  exact ⟨p, ls, parse_of_written hwf hnesting' hfilled hls htokens, hls, htokens⟩

/-- Tokens of a source are a prefix of those of an accepted one if they begin a well-formed
program. -/
theorem extendable_of_viable (hviable : Viable slots WellFormed ts)
    (hspellable : ∀ t ∈ ts, t.Spellable) : Extendable ts := by
  obtain ⟨p, hwf, us, hfilled, hus⟩ := hviable
  refine ⟨us, accepted_of_filled hwf hfilled fun t ht => ?_⟩
  rcases List.mem_append.mp ht with ht | ht
  · exact hspellable t ht
  · exact hus t ht

/-- A source with a fault that is not about nesting has a token that is refused. Those in front of
it can be completed to an accepted source, and no source that goes on with it is accepted. -/
theorem refused_of_parse {position : Position} {fault : ParseFault}
    (hyields : Lexer.Yields ⟨limits, src, false⟩ ls)
    (h : parse limits src = .error (.invalid position fault))
    (hfault : ∀ max, fault ≠ .nestingTooDeep max) :
    ∃ before l after, ls = before ++ l :: after ∧ l.position = position ∧
      Extendable (before.map (·.token)) ∧
      ∀ limits' src' ls' us p, Lexer.Yields ⟨limits', src', false⟩ ls' →
        ls'.map (·.token) = before.map (·.token) ++ l.token :: us → parse limits' src' ≠ .ok p := by
  obtain ⟨cause, -, hcause⟩ | ⟨first, src₁, s', hlexeme, hprogram⟩ := parse_eq_error_iff.mp h
  · exact absurd hcause (by simp)
  have hclosed := Source.closed_lexemes first limits src₁
  cases Parse.program_decided limits.nesting hclosed with
  | accepts p hreads haccepts =>
    rw [haccepts _ _ hclosed hreads rfl] at hprogram
    exact absurd hprogram (by simp)
  | @refuses x ts s₀ hreads herror hbegins hrefuses =>
    obtain ⟨e, he⟩ := Option.ne_none_iff_exists'.mp herror
    obtain ⟨s'', hs''⟩ := hrefuses _ _ e hclosed hreads rfl he
    rw [hprogram] at hs''
    obtain rfl := (EStateM.Result.error.inj hs'').1
    -- So the fault is that of the refusal, which is about the token behind those consumed.
    obtain ⟨hposition, hjudges⟩ := Parse.Refusal.of_invalid he
    obtain ⟨before, after, rfl, rfl⟩ := Lexer.Yields.append_of_reads hreads rfl hlexeme hyields
    have hspellable : ∀ t ∈ before.map (·.token), t.Spellable := by
      intro t ht
      obtain ⟨l, hl, rfl⟩ := List.mem_map.mp ht
      exact hyields.spellable l (List.mem_append_left _ hl) (hreads.ne_endOfFile _ ht)
    refine ⟨before, s₀.current, after, rfl, hposition,
      extendable_of_viable (hbegins (hjudges hfault)) hspellable, ?_⟩
    intro limits' src' ls' us p hyields' htokens hp
    -- The parser gets to the token on the other source too, and refuses it there.
    obtain ⟨first', src₁', u₀, hlexeme', hreads', htoken⟩ := hyields'.reads_prefix htokens
    obtain ⟨e', he', hdeep⟩ := (hjudges hfault).exists_error u₀
    obtain ⟨u'', hu''⟩ := hrefuses _ u₀ e' (Source.closed_lexemes first' limits' src₁') hreads'
      htoken he'
    obtain ⟨first'', src'', u', hlexeme'', hprogram'⟩ := parse_eq_ok_iff.mp hp
    rw [hlexeme'] at hlexeme''
    obtain ⟨hfirst, rfl⟩ := Prod.mk.inj hlexeme''
    obtain rfl := Except.ok.inj hfirst
    -- The limits on nesting may differ, but neither parser reports that they are exceeded.
    rcases Nat.le_total limits.nesting limits'.nesting with hle | hle
    · rcases Parse.program_capped hle ⟨first', src₁'.lexemes limits'⟩ with hsame | ⟨q, u, hcapped⟩
      · rw [hsame, hprogram'] at hu''
        exact absurd hu'' (by simp)
      · rw [hcapped] at hu''
        exact hdeep q _ (EStateM.Result.error.inj hu'').1.symm
    · rcases Parse.program_capped hle ⟨first', src₁'.lexemes limits'⟩ with hsame | ⟨q, u, hcapped⟩
      · rw [← hsame, hprogram'] at hu''
        exact absurd hu'' (by simp)
      · rw [hprogram'] at hcapped
        exact absurd hcapped (by simp)

/-! ## The first fault -/

/-- If a source that is lexed without an error is refused for a fault that is not about nesting,
then the fault is at the first token that cannot be right. Only this one of the tokens stands in its
place. The tokens in front of it are a prefix of those of some source that is accepted, and together
with it they are not; if it is the end of the file, they are not accepted themselves. -/
theorem first_fault {bytes : List UInt8} {ending : Source.Ending} {position : Position}
    {fault : ParseFault} (hyields : Lexer.Yields ⟨limits, .ofBytes bytes ending, false⟩ ls)
    (h : parse limits (.ofBytes bytes ending) = .error (.invalid position fault))
    (hfault : ∀ max, fault ≠ .nestingTooDeep max) :
    ∃ before l after, ls = before ++ l :: after ∧ l.position = position ∧
      (∀ l' ∈ before ++ after, l'.position ≠ position) ∧
      Extendable (before.map (·.token)) ∧ ¬Extendable ((before ++ [l]).map (·.token)) ∧
      (l.token = .endOfFile → ¬Accepted (before.map (·.token))) := by
  obtain ⟨before, l, after, rfl, hposition, hextendable, hrefused⟩ :=
    refused_of_parse hyields h hfault
  refine ⟨before, l, after, rfl, hposition, ?_, hextendable, ?_, ?_⟩
  · -- Lexemes stand at places of their own, each behind the one before.
    obtain ⟨hsorted, -⟩ := hyields.sorted (Source.laid_ofBytes bytes ending)
    obtain ⟨-, hafter, hbefore⟩ := List.pairwise_append.mp hsorted
    intro l' hl' heq
    rw [← hposition] at heq
    rcases List.mem_append.mp hl' with hl' | hl'
    · have hlt := hbefore l' hl' l List.mem_cons_self
      rw [heq] at hlt
      exact Position.lt_irrefl _ hlt
    · have hlt := (List.pairwise_cons.mp hafter).1 l' hl'
      rw [heq] at hlt
      exact Position.lt_irrefl _ hlt
  · -- An extension of the tokens up to the fault would be the tokens of a program.
    rintro ⟨us, limits', bytes', haccepted⟩
    obtain ⟨p, ls', hp, hyields', htokens⟩ := haccepted limits' (Limits.le_refl limits')
    refine hrefused _ _ ls' (us ++ [.endOfFile]) p hyields' ?_ hp
    rw [htokens, List.map_append, List.append_assoc, List.append_assoc]
    rfl
  · -- Accepted tokens in front of the end of the source would be those of a program.
    rintro hend ⟨limits', bytes', haccepted⟩
    obtain ⟨p, ls', hp, hyields', htokens⟩ := haccepted limits' (Limits.le_refl limits')
    refine hrefused _ _ ls' [] p hyields' ?_ hp
    rw [htokens, hend]

/-- A name that is declared twice among parameters is refused where it stands the second time. -/
theorem first_fault_parameters : ∃ ls before l after,
    Lexer.Yields ⟨.standard, .ofBytes (Text.bytes "fn f(a, a) \x7b\x7d") .endOfFile, false⟩ ls ∧
      ls = before ++ l :: after ∧ l.position = ⟨1, 9⟩ ∧ Extendable (before.map (·.token)) ∧
      ¬Extendable ((before ++ [l]).map (·.token)) := by
  have hlexed : (Source.ofBytes (Text.bytes "fn f(a, a) \x7b\x7d") .endOfFile).lexed .standard 13 =
      ([⟨.keyword .fnKey, ⟨1, 1⟩⟩, ⟨.identifier "f", ⟨1, 4⟩⟩, ⟨.symbol .leftParen, ⟨1, 5⟩⟩,
        ⟨.identifier "a", ⟨1, 6⟩⟩, ⟨.symbol .comma, ⟨1, 7⟩⟩, ⟨.identifier "a", ⟨1, 9⟩⟩,
        ⟨.symbol .rightParen, ⟨1, 10⟩⟩, ⟨.symbol .leftCurly, ⟨1, 12⟩⟩,
        ⟨.symbol .rightCurly, ⟨1, 13⟩⟩] : List Lexeme).map .ok := by
    decide +kernel
  have hyields := Lexer.yields_of_lexed 13 (by decide +kernel) hlexed rfl
  have hparsed :
      (match parse .standard (.ofBytes (Text.bytes "fn f(a, a) \x7b\x7d") .endOfFile) with
        | .ok _ => none
        | .error e => some e) = some (.invalid ⟨1, 9⟩ (.duplicateParameter "a")) := by
    decide +kernel
  cases h : parse .standard (.ofBytes (Text.bytes "fn f(a, a) \x7b\x7d") .endOfFile) with
  | ok p =>
    rw [h] at hparsed
    exact absurd hparsed (by simp)
  | error e =>
    rw [h] at hparsed
    rw [Option.some.inj hparsed] at h
    obtain ⟨before, l, after, hls, hposition, -, hextendable, hrefused, -⟩ :=
      first_fault hyields h (by simp)
    exact ⟨_, before, l, after, hyields, hls, hposition, hextendable, hrefused⟩

end Program

end Brisk
