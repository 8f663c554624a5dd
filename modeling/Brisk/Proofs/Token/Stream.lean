import Brisk.Proofs.Parse.Reads
import Brisk.Proofs.Token.Progress
import Brisk.Proofs.Token.Segment

/-!
# The tokens of a source as a stream

`Lexer.Yields lexer ls` says that iterating over a lexer gives the lexemes `ls` without an error and
then stops. A parser looks at the same tokens through a stream, of which every element takes a scan
of its own (`Source.lexemes_next`): each scan that finds pieces consumes at least one of them, so
the bound on the number of pending elements never cuts the stream short.

With that, consuming the tokens of the stream is iterating over the lexer (`Lexer.Yields.reads`,
`Lexer.yields_of_reads`).
-/

namespace Brisk

/-! ## Single scans -/

/-- Behind the last piece there is the token for the end, or an error. -/
theorem Scan.token_eq_endOfFile_of_nil {limits : Limits} {edge : Edge} {l : Lexeme}
    {rest' : List Placed} (h : lexeme limits edge [] = (.ok l, rest')) : l.token = .endOfFile := by
  obtain ⟨gap, mid, hspells, -, -, ⟨-, -, -, rfl⟩ | ⟨c, more, text, hmid, -⟩⟩ := lexeme_sound h
  · rfl
  · have hlen := hspells.length_add_length
    rw [hmid, List.length_cons, List.length_nil] at hlen
    omega

/-- The token for the end is only found when nothing is left. -/
theorem Scan.eq_nil_of_endOfFile {limits : Limits} {edge : Edge} {rest rest' : List Placed}
    {l : Lexeme} (h : lexeme limits edge rest = (.ok l, rest')) (hl : l.token = .endOfFile) :
    rest' = [] ∧ edge.failure = none ∧ l = ⟨.endOfFile, edge.position⟩ := by
  obtain ⟨gap, mid, -, -, -, ⟨hfailure, -, hrest, hl'⟩ | ⟨c, more, text, -, hscanned, -⟩⟩ :=
    lexeme_sound h
  · exact ⟨hrest, hfailure, hl'⟩
  · exact absurd hl hscanned.spelling.ne_endOfFile

/-- What a scan has consumed can be decoded. -/
theorem Scan.spells_of_lexeme {limits : Limits} {edge : Edge} {rest rest' : List Placed}
    {l : Lexeme} (h : lexeme limits edge rest = (.ok l, rest')) :
    ∃ text, Spells rest text rest' := by
  obtain ⟨gap, mid, hspells, -, -, ⟨-, rfl, rfl, -⟩ | ⟨c, more, text, rfl, hscanned, -⟩⟩ :=
    lexeme_sound h
  · exact ⟨_, hspells⟩
  · exact ⟨_, hspells.append (.cons rfl hscanned.spells)⟩

/-- What a scan finds in front of the end has a spelling. -/
theorem Scan.spellable_of_lexeme {limits : Limits} {edge : Edge} {rest rest' : List Placed}
    {l : Lexeme} (h : lexeme limits edge rest = (.ok l, rest')) (hne : l.token ≠ .endOfFile) :
    l.token.Spellable := by
  obtain ⟨gap, mid, -, -, -, ⟨-, -, -, rfl⟩ | ⟨c, more, text, -, hscanned, -⟩⟩ := lexeme_sound h
  · exact absurd rfl hne
  · exact ⟨_, hscanned.spelling⟩

namespace Source

variable {limits : Limits} {src src' : Source}

/-- Finding a lexeme leaves what the scan has left. -/
theorem lexeme_snd (limits : Limits) (src : Source) : (src.lexeme limits).2 =
    { src with ahead := (Scan.lexeme limits src.edge src.ahead).2 } := rfl

/-- Scanning leaves fewer pieces, if there are any. -/
theorem length_lexeme_le (limits : Limits) (src : Source) :
    (src.lexeme limits).2.ahead.length ≤ src.ahead.length - 1 := by
  have h := (Scan.lexeme_progress limits src.edge src.ahead).length_le
  rw [List.length_drop] at h
  exact h

/-- A token is looked for with the same limits and the same edge at every place. -/
theorem lexeme_eq_ok_iff {l : Lexeme} : src.lexeme limits = (.ok l, src') ↔
    Scan.lexeme limits src.edge src.ahead = (.ok l, src'.ahead) ∧ src'.edge = src.edge := by
  obtain ⟨ahead, edge⟩ := src'
  unfold lexeme
  simp only
  constructor
  · intro h
    obtain ⟨h₁, h₂⟩ := Prod.mk.inj h
    obtain ⟨rfl, rfl⟩ := Source.mk.inj h₂
    exact ⟨Prod.ext h₁ rfl, rfl⟩
  · intro h
    obtain ⟨h, rfl⟩ := h
    rw [h]

/-- At the end of a source that does not fail there is the token for it. -/
theorem lexeme_of_nil {edge : Edge} (limits : Limits) (h : edge.failure = none) :
    (Source.mk [] edge).lexeme limits = (.ok ⟨.endOfFile, edge.position⟩, ⟨[], edge⟩) := by
  unfold Source.lexeme Scan.lexeme Scan.skip Scan.atEdge
  simp only [h]

/-- A larger bound adds nothing to the tokens of a source. -/
theorem lexed_eq_of_length_le (limits : Limits) (n : Nat) : ∀ (m : Nat) (src : Source),
    src.ahead.length ≤ n → n ≤ m → src.lexed limits m = src.lexed limits n := by
  induction n with
  | zero =>
    intro m src hlength _
    have hnil : src.ahead = [] := List.length_eq_zero_iff.mp (Nat.le_zero.mp hlength)
    cases m with
    | zero => rfl
    | succ m => simp [lexed, hnil]
  | succ n ih =>
    intro m src hlength hm
    obtain ⟨m, rfl⟩ : ∃ k, m = k + 1 := ⟨m - 1, by omega⟩
    have hle := length_lexeme_le limits src
    -- A scan of a source that is not empty consumes a piece, so the bounds shrink together.
    have htail := ih m (src.lexeme limits).2 (by omega) (by omega)
    unfold lexed
    simp only [htail]

/-- The stream of a source goes on with the stream of what a scan leaves. -/
theorem lexemes_next (limits : Limits) (src : Source) : (src.lexemes limits).next =
    ((src.lexeme limits).1, (src.lexeme limits).2.lexemes limits) := by
  obtain ⟨ahead, edge⟩ := src
  cases ahead with
  | nil =>
    have hnil : ((Source.mk [] edge).lexeme limits).2 = ⟨[], edge⟩ := by
      have hle := length_lexeme_le limits ⟨[], edge⟩
      rw [lexeme_snd, Source.mk.injEq]
      exact ⟨List.length_eq_zero_iff.mp (Nat.le_zero.mp hle), rfl⟩
    rw [hnil]
    rfl
  | cons p rest =>
    have hle := length_lexeme_le limits ⟨p :: rest, edge⟩
    cases hlexeme : (Source.mk (p :: rest) edge).lexeme limits with
    | mk item src' =>
      rw [hlexeme] at hle
      have htail := lexed_eq_of_length_le limits src'.ahead.length rest.length src'
        (Nat.le_refl _) hle
      have hedge : src'.edge = edge := by
        have hsnd := lexeme_snd limits ⟨p :: rest, edge⟩
        rw [hlexeme] at hsnd
        exact congrArg Source.edge hsnd
      have hlast : (src'.lexemes limits).last = ((Source.mk [] edge).lexeme limits).1 := by
        show (Source.lexeme limits { src' with ahead := [] }).1 = _
        rw [hedge]
      by_cases hend : ∃ position, item = .ok ⟨.endOfFile, position⟩
      · -- The end: nothing is pending, here and behind it.
        obtain ⟨position, rfl⟩ := hend
        obtain ⟨hnil, hfailure, hl⟩ :=
          Scan.eq_nil_of_endOfFile (lexeme_eq_ok_iff.mp hlexeme).1 rfl
        have hempty := lexeme_of_nil limits hfailure
        obtain rfl : src' = ⟨[], edge⟩ := by
          obtain ⟨ahead', edge'⟩ := src'
          simp only at hnil hedge
          rw [hnil, hedge]
        simp only at hl
        unfold lexemes Lexemes.next
        simp only [List.length_cons, lexed, List.isEmpty_cons, hlexeme, hempty, hl]
        rfl
      · -- Any other token, or an error: it is pending first, and what is pending behind it is laid
        -- out with a bound that is larger than need be.
        have hpending : (Source.mk (p :: rest) edge).lexed limits (rest.length + 1) =
            item :: src'.lexed limits rest.length := by
          rw [lexed]
          simp only [List.isEmpty_cons, hlexeme, Bool.false_eq_true, if_false]
          split
          · next position => exact absurd ⟨position, rfl⟩ hend
          · rfl
        have hpending' : ((Source.mk (p :: rest) edge).lexemes limits).pending =
            item :: src'.lexed limits src'.ahead.length := by
          rw [← htail]
          exact hpending
        unfold Lexemes.next
        rw [hpending']
        simp only [Prod.mk.injEq, true_and]
        show Lexemes.mk _ _ = Lexemes.mk _ _
        rw [Lexemes.mk.injEq]
        exact ⟨rfl, hlast.symm⟩

/-- The stream of a source ends with the end of the file or an error. -/
theorem closed_lexemes (l : Lexeme) (limits : Limits) (src : Source) :
    Parse.State.Closed ⟨l, src.lexemes limits⟩ := by
  intro l' hl'
  have h : Source.lexeme limits { src with ahead := [] } =
      (.ok l', (Source.lexeme limits { src with ahead := [] }).2) := Prod.ext hl' rfl
  exact Scan.token_eq_endOfFile_of_nil (lexeme_eq_ok_iff.mp h).1

end Source

/-! ## Iterating -/

/-- Iterating over a lexer gives lexemes without an error, and then stops. -/
inductive Lexer.Yields : Lexer → List Lexeme → Prop where
  | stop {lexer lexer' : Lexer} (h : lexer.step = (none, lexer')) : Yields lexer []
  | next {lexer lexer' : Lexer} {l : Lexeme} {ls : List Lexeme}
      (h : lexer.step = (some (.ok l), lexer')) (hrest : Yields lexer' ls) : Yields lexer (l :: ls)

namespace Lexer

variable {limits : Limits} {src src' : Source} {l : Lexeme} {ls : List Lexeme}

/-- An iteration that has stopped gives nothing more. -/
theorem yields_finished_iff : Yields ⟨limits, src, true⟩ ls ↔ ls = [] := by
  constructor
  · intro h
    obtain _ | ⟨h, -⟩ := h
    · rfl
    · exact absurd (congrArg Prod.fst h) (by simp [step])
  · rintro rfl
    exact .stop rfl

/-- Each lexeme of an iteration takes a scan, and the one for the end of the source is the last. -/
theorem yields_iff : Yields ⟨limits, src, false⟩ ls ↔ ∃ l src', src.lexeme limits = (.ok l, src') ∧
    ((l.token = .endOfFile ∧ ls = [l]) ∨
      (l.token ≠ .endOfFile ∧ ∃ ls', ls = l :: ls' ∧ Yields ⟨limits, src', false⟩ ls')) := by
  have hstep : step ⟨limits, src, false⟩ =
      (some (src.lexeme limits).1, ⟨limits, (src.lexeme limits).2, isLast (src.lexeme limits).1⟩) :=
    rfl
  constructor
  · intro h
    obtain h | @⟨_, lexer', l, ls, h, hrest⟩ := h
    · rw [hstep] at h
      exact absurd (congrArg Prod.fst h) (by simp)
    · rw [hstep] at h
      obtain ⟨hl, rfl⟩ := Prod.mk.inj h
      have hl := Option.some.inj hl
      refine ⟨l, (src.lexeme limits).2, Prod.ext hl rfl, ?_⟩
      rw [hl] at hrest
      -- The lexer marks itself as finished with the token for the end, and with no other.
      by_cases hend : l.token = .endOfFile
      · have hlast : isLast (.ok l) = true := by simp [isLast, hend]
        rw [hlast] at hrest
        rw [yields_finished_iff.mp hrest]
        exact .inl ⟨hend, rfl⟩
      · have hlast : isLast (.ok l) = false := by simp [isLast, hend]
        rw [hlast] at hrest
        exact .inr ⟨hend, ls, rfl, hrest⟩
  · intro h
    obtain ⟨l, src', hl, h⟩ := h
    rw [hl] at hstep
    rcases h with ⟨hend, rfl⟩ | ⟨hend, ls', rfl, hrest⟩
    · have hlast : isLast (.ok l) = true := by simp [isLast, hend]
      rw [hlast] at hstep
      exact .next hstep (yields_finished_iff.mpr rfl)
    · have hlast : isLast (.ok l) = false := by simp [isLast, hend]
      rw [hlast] at hstep
      exact .next hstep hrest

/-- There is always the lexeme for the end of the source. -/
theorem Yields.ne_nil (h : Yields ⟨limits, src, false⟩ ls) : ls ≠ [] := by
  obtain ⟨l, src', -, ⟨-, rfl⟩ | ⟨-, ls', rfl, -⟩⟩ := yields_iff.mp h
  · exact List.cons_ne_nil l []
  · exact List.cons_ne_nil l ls'

/-- An iteration gives the same lexemes whenever it gives no error. -/
theorem Yields.unique {ls' : List Lexeme} (h : Yields ⟨limits, src, false⟩ ls)
    (h' : Yields ⟨limits, src, false⟩ ls') : ls = ls' := by
  -- By induction on the lexemes of one iteration: the scans are functions of the source, so the
  -- other iteration takes the same ones.
  induction ls generalizing src ls' with
  | nil => exact absurd rfl h.ne_nil
  | cons l ls ih =>
    obtain ⟨l₁, src₁, hl, hls⟩ := yields_iff.mp h
    obtain ⟨l₂, src₂, hl', hls'⟩ := yields_iff.mp h'
    rw [hl] at hl'
    obtain ⟨heq, rfl⟩ := Prod.mk.inj hl'
    obtain rfl := Except.ok.inj heq
    rcases hls with ⟨hend, hls⟩ | ⟨hne, ms, hls, hrest⟩
    · rcases hls' with ⟨-, hls'⟩ | ⟨hne, -⟩
      · rw [hls, hls']
      · exact absurd hend hne
    · rcases hls' with ⟨hend, -⟩ | ⟨-, ms', hls', hrest'⟩
      · exact absurd hend hne
      · obtain ⟨rfl, rfl⟩ := List.cons.inj hls
        rw [hls', ih hrest hrest']

/-- At the end of a source that does not fail, an iteration gives the end of the file. -/
theorem yields_of_nil (hnil : src.ahead = []) (hfailure : src.edge.failure = none) :
    Yields ⟨limits, src, false⟩ [⟨.endOfFile, src.edge.position⟩] := by
  obtain ⟨ahead, edge⟩ := src
  simp only at hnil hfailure
  subst hnil
  exact yields_iff.mpr ⟨_, _, Source.lexeme_of_nil limits hfailure, .inl ⟨rfl, rfl⟩⟩

/-- A lexer gives what is laid out of its source if that has no errors, and then the end of the
file. -/
theorem yields_of_lexed (n : Nat) (hlength : src.ahead.length ≤ n)
    (h : src.lexed limits n = ls.map .ok) (hfailure : src.edge.failure = none) :
    Yields ⟨limits, src, false⟩ (ls ++ [⟨.endOfFile, src.edge.position⟩]) := by
  induction n generalizing src ls with
  | zero =>
    rw [List.map_eq_nil_iff.mp h.symm]
    exact yields_of_nil (List.length_eq_zero_iff.mp (Nat.le_zero.mp hlength)) hfailure
  | succ n ih =>
    by_cases hnil : src.ahead = []
    · rw [Source.lexed, hnil] at h
      rw [List.map_eq_nil_iff.mp h.symm]
      exact yields_of_nil hnil hfailure
    have hempty : src.ahead.isEmpty = false := by simpa using hnil
    have hle := Source.length_lexeme_le limits src
    cases hlexeme : src.lexeme limits with
    | mk item src' =>
      rw [hlexeme] at hle
      rw [Source.lexed, hempty, hlexeme] at h
      simp only [Bool.false_eq_true, if_false] at h
      split at h
      · next position =>
        obtain ⟨-, -, hl⟩ := Scan.eq_nil_of_endOfFile (Source.lexeme_eq_ok_iff.mp hlexeme).1 rfl
        rw [List.map_eq_nil_iff.mp h.symm]
        exact yields_iff.mpr ⟨_, src', hlexeme, .inl ⟨rfl, by rw [hl]; rfl⟩⟩
      · -- A token in front of the end: the scan has left a shorter source.
        next hne =>
        obtain ⟨l, ls', rfl, rfl, hlexed⟩ := List.map_eq_cons_iff.mp h.symm
        have hedge := (Source.lexeme_eq_ok_iff.mp hlexeme).2
        have hrest := ih (by simp only at hle; omega) hlexed.symm (by rw [hedge]; exact hfailure)
        rw [hedge] at hrest
        refine yields_iff.mpr ⟨l, src', hlexeme, .inr ⟨?_, _, rfl, hrest⟩⟩
        intro hend
        exact hne l.position (by rw [← hend])

/-- A source over which a lexer iterates without an error can be decoded and read to its end. -/
theorem Yields.spells (h : Yields ⟨limits, src, false⟩ ls) :
    (∃ text, Spells src.ahead text []) ∧ src.edge.failure = none := by
  induction ls generalizing src with
  | nil => exact absurd rfl h.ne_nil
  | cons l ls ih =>
    obtain ⟨l', src', hl, h⟩ := yields_iff.mp h
    obtain ⟨hscan, hedge⟩ := Source.lexeme_eq_ok_iff.mp hl
    rcases h with ⟨hend, -⟩ | ⟨-, ls', hls, hrest⟩
    · -- The end of the source has only blanks in front, and the edge has not failed.
      obtain ⟨hnil, hfailure, -⟩ := Scan.eq_nil_of_endOfFile hscan hend
      obtain ⟨text, hspells⟩ := Scan.spells_of_lexeme hscan
      rw [hnil] at hspells
      exact ⟨⟨text, hspells⟩, hfailure⟩
    · rw [← (List.cons.inj hls).2] at hrest
      obtain ⟨⟨text', hspells'⟩, hfailure⟩ := ih hrest
      obtain ⟨text, hspells⟩ := Scan.spells_of_lexeme hscan
      rw [hedge] at hfailure
      exact ⟨⟨text ++ text', hspells.append hspells'⟩, hfailure⟩

/-- The tokens of an iteration in front of the end have spellings. -/
theorem Yields.spellable (h : Yields ⟨limits, src, false⟩ ls) :
    ∀ l ∈ ls, l.token ≠ .endOfFile → l.token.Spellable := by
  induction ls generalizing src with
  | nil => simp
  | cons l ls ih =>
    obtain ⟨l', src', hl, h⟩ := yields_iff.mp h
    have hspellable := Scan.spellable_of_lexeme (Source.lexeme_eq_ok_iff.mp hl).1
    intro l₁ hl₁
    rcases h with ⟨-, hls⟩ | ⟨-, ls', hls, hrest⟩
    · rw [hls, List.mem_singleton] at hl₁
      rw [hl₁]
      exact hspellable
    · obtain ⟨rfl, rfl⟩ := List.cons.inj hls
      rcases List.mem_cons.mp hl₁ with rfl | hl₁
      · exact hspellable
      · exact ih hrest l₁ hl₁

/-- The tokens of an iteration can be written in a source. -/
theorem Yields.lexical (h : Yields ⟨limits, src, false⟩ ls) : ∀ l ∈ ls, l.token.Lexical := by
  intro l hl
  by_cases hend : l.token = .endOfFile
  · rw [hend]
    trivial
  · obtain ⟨text, hspelling⟩ := h.spellable l hl hend
    exact hspelling.lexical

/-- The lexemes of an iteration can be consumed from the stream of the source, up to any of them. -/
theorem Yields.reads_prefix {ts us : List Token} {t : Token} (h : Yields ⟨limits, src, false⟩ ls)
    (hts : ls.map (·.token) = ts ++ t :: us) :
    ∃ first src₁ s', src.lexeme limits = (.ok first, src₁) ∧
      Parse.Reads ⟨first, src₁.lexemes limits⟩ ts s' ∧ s'.current.token = t := by
  induction ts generalizing src ls with
  | nil =>
    obtain ⟨l, src₁, hl, ⟨-, rfl⟩ | ⟨-, ls', rfl, -⟩⟩ := yields_iff.mp h
    all_goals
      rw [List.map_cons] at hts
      exact ⟨l, src₁, _, hl, .refl _, (List.cons.inj hts).1⟩
  | cons t ts ih =>
    obtain ⟨l, src₁, hl, ⟨hend, rfl⟩ | ⟨hne, ls', rfl, hrest⟩⟩ := yields_iff.mp h
    · rw [List.map_cons, List.cons_append] at hts
      exact absurd (List.cons.inj hts).2 (by simp)
    · rw [List.map_cons, List.cons_append] at hts
      obtain ⟨rfl, hmore⟩ := List.cons.inj hts
      obtain ⟨second, src₂, s', hl', hreads, hend⟩ := ih hrest hmore
      -- The parser looks at `l` while the stream has gone on, so it is one scan behind the lexer.
      refine ⟨l, src₁, s', hl, ?_, hend⟩
      have hnext := Source.lexemes_next limits src₁
      rw [hl'] at hnext
      exact .head hne hnext hreads

/-- The lexemes of an iteration can be consumed from the stream of the source, up to its end. -/
theorem Yields.reads {ts : List Token} (h : Yields ⟨limits, src, false⟩ ls)
    (hts : ls.map (·.token) = ts ++ [.endOfFile]) :
    ∃ first src₁ s', src.lexeme limits = (.ok first, src₁) ∧
      Parse.Reads ⟨first, src₁.lexemes limits⟩ ts s' ∧ s'.current.token = .endOfFile :=
  h.reads_prefix hts

/-- Tokens that are consumed from the stream of a source, up to its end, are what iterating over it
gives. -/
theorem yields_of_reads {ts : List Token} {s s' : Parse.State} (h : Parse.Reads s ts s')
    (hend : s'.current.token = .endOfFile) {src₁ : Source} (hs : s.ahead = src₁.lexemes limits)
    (hl : src.lexeme limits = (.ok s.current, src₁)) :
    ∃ ls, Yields ⟨limits, src, false⟩ ls ∧ ls.map (·.token) = ts ++ [.endOfFile] := by
  induction h generalizing src src₁ with
  | refl s =>
    refine ⟨[s.current], yields_iff.mpr ⟨s.current, src₁, hl, .inl ⟨hend, rfl⟩⟩, ?_⟩
    rw [List.map_singleton, hend]
    rfl
  | @head s s' second ahead ts hne hnext _ ih =>
    rw [hs, Source.lexemes_next] at hnext
    obtain ⟨hsecond, hahead⟩ := Prod.mk.inj hnext
    obtain ⟨ls, hyields, hts⟩ := ih hend hahead.symm (Prod.ext hsecond rfl)
    refine ⟨s.current :: ls, yields_iff.mpr ⟨_, src₁, hl, .inr ⟨hne, ls, rfl, hyields⟩⟩, ?_⟩
    rw [List.map_cons, hts]
    rfl

end Lexer

end Brisk
