import Brisk.Proofs.Parse.Rounds
import Brisk.Proofs.Tree.Begins

/-!
# What decides a parser

A parser looks at one token at a time. So what it does is decided by the tokens that it consumes and
the one that it looks at in the end: in front of the same tokens, it accepts or refuses alike. If it
refuses, the tokens that it has consumed are still a beginning of something that it accepts.

`Decided p V s` says both of a parser `p` in the state `s`, where `V` is what has to hold of the
tokens that were consumed in front of a refused one. It does not say that the states behind those
tokens agree any further. Neither the positions nor the tokens that come later are the same, and
where the next token is an error, the parser only fails if it gets there. `Refusal` lists the ways
in which it may fail with respect to the last token.

Parsers are put together by `decided_bind`. Behind a part that has consumed tokens `ts`, what is
asked of further tokens `us` is what was asked of `ts ++ us`.
-/

namespace Brisk.Parse

variable {α β : Type} {s s' s₀ u u₀ : State} {ts us : List Token}

/-! ## Tokens that are read twice -/

namespace Reads

/-- Which token comes first is known from those that are read and the one behind them. -/
theorem current_congr (h : Reads s ts s') (hu : Reads u ts u₀)
    (ht : u₀.current.token = s'.current.token) : u.current.token = s.current.token := by
  cases ts with
  | nil => rwa [nil_iff.mp h, nil_iff.mp hu]
  | cons t ts => rw [h.current_eq, hu.current_eq]

/-- On the way from one state to another the same tokens are read each time. -/
theorem unique (h : Reads s ts s') (h' : Reads s us s') (hs : s.Closed) : ts = us := by
  induction ts generalizing s us with
  | nil =>
    obtain rfl := nil_iff.mp h
    -- A token that is read makes the state smaller, so none leads back to the same state.
    have hsize := h'.length_add_size_le hs
    exact (List.eq_nil_of_length_eq_zero (by omega)).symm
  | cons t ts ih =>
    obtain ⟨rfl, -, s₁, hadvance, hrest⟩ := cons_iff.mp h
    cases us with
    | nil =>
      obtain rfl := nil_iff.mp h'
      have hsize := h.length_add_size_le hs
      rw [List.length_cons] at hsize
      omega
    | cons t' us =>
      obtain ⟨rfl, hne, s₂, hadvance', hrest'⟩ := cons_iff.mp h'
      obtain rfl : s₁ = s₂ := (EStateM.Result.ok.inj (hadvance.symm.trans hadvance')).2
      rw [ih hrest hrest' ((reads_of_advance hadvance rfl hne).closed hs)]

end Reads

/-! ## Refusals -/

/-- A way to refuse the token that is being looked at. -/
inductive Refusal where
  /-- The token has a fault. -/
  | fault (f : ParseFault)
  /-- The token has a fault, which is found when the next one is already being looked at. -/
  | later (f : ParseFault)
  /-- There is an error in the place of the next token. -/
  | missing

namespace Refusal

/-- The error of a refusal in a state, if there is one. -/
def error? : Refusal → State → Option ParseError
  | .fault f, s => some (.invalid s.current.position f)
  | .later f, s =>
    match s.ahead.next.1 with
    | .ok _ => some (.invalid s.current.position f)
    | .error e => some (.lex e)
  | .missing, s =>
    match s.ahead.next.1 with
    | .ok _ => none
    | .error e => some (.lex e)

/-- Whether a refusal is a judgement on the token, and not on its nesting or on what is behind
it. -/
def Judges : Refusal → Prop
  | .fault f | .later f => ∀ max, f ≠ .nestingTooDeep max
  | .missing => False

end Refusal

/-- A token behind which there is an error cannot be left. -/
theorem advance_of_missing {e : ParseError} (h : Refusal.missing.error? s = some e) :
    ∃ s', advance s = .error e s' := by
  cases hnext : s.ahead.next with
  | mk item ahead =>
    rw [Refusal.error?, hnext] at h
    unfold advance
    rw [hnext]
    cases item with
    | ok l => exact absurd h (by simp)
    | error c =>
      cases h
      exact ⟨_, rfl⟩

/-- A fault that is reported when the next token is being looked at. -/
theorem advance_throw_of_later {fault : ParseFault} {e : ParseError}
    (h : (Refusal.later fault).error? s = some e) :
    ∃ s', (advance >>= fun _ => throw (.invalid s.current.position fault) : Parse α) s =
      .error e s' := by
  cases hnext : s.ahead.next with
  | mk item ahead =>
    rw [Refusal.error?, hnext] at h
    -- A token stands behind, and the fault is reported as it is.
    cases item with
    | ok l =>
      cases h
      have hadvance : advance s = .ok () ⟨l, ahead⟩ := advance_eq_ok_iff.mpr hnext
      exact ⟨_, bind_of_ok hadvance⟩
    -- Nothing can be scanned behind, which is reported in place of the fault.
    | error c =>
      have hmissing : Refusal.missing.error? s = some e := by rw [Refusal.error?, hnext, h]
      obtain ⟨s', hadvance⟩ := advance_of_missing hmissing
      exact ⟨s', bind_of_error hadvance⟩

/-- What a parser does in a state is decided by the tokens that it consumes and the one behind them.
Where it refuses that one, those in front of it have a given property. -/
inductive Decided (p : Parse α) (V : List Token → Prop) (s : State) : Prop where
  | accepts (a : α) {ts : List Token} {s' : State} (hreads : Reads s ts s')
      (haccepts : ∀ u u', u.Closed → Reads u ts u' → u'.current.token = s'.current.token →
        p u = .ok a u')
  | refuses (x : Refusal) {ts : List Token} {s' : State} (hreads : Reads s ts s')
      (herror : x.error? s' ≠ none) (hbegins : x.Judges → V ts)
      (hrefuses : ∀ u u' e, u.Closed → Reads u ts u' → u'.current.token = s'.current.token →
        x.error? u' = some e → ∃ u'', p u = .error e u'')

namespace Decided

variable {V V' : List Token → Prop} {p : Parse α} {q : Parse β}

/-- Less may be asked of the tokens in front of a refused one. -/
theorem mono (h : Decided p V s) (hV : ∀ ts, V ts → V' ts) : Decided p V' s := by
  cases h with
  | accepts a hreads haccepts => exact .accepts a hreads haccepts
  | refuses x hreads herror hbegins hrefuses =>
    exact .refuses x hreads herror (fun hx => hV _ (hbegins hx)) hrefuses

/-- A parser that goes on as another one, once tokens are consumed, is decided if that one is. -/
theorem behind {q : Parse α} (hreads : Reads s ts s₀) (h : Decided p (fun us => V (ts ++ us)) s₀)
    (hsame : ∀ u u₀, u.Closed → Reads u ts u₀ → u₀.current.token = s₀.current.token →
      q u = p u₀) : Decided q V s := by
  -- Where the same tokens are consumed on another stream, the first of them lead to a state that
  -- looks at the same token as `s₀`.
  cases h with
  | accepts a hreads' haccepts =>
    refine .accepts a (hreads.trans hreads') fun u u' hu hread ht => ?_
    obtain ⟨u₀, hread₀, hread⟩ := Reads.append_iff.mp hread
    rw [hsame u u₀ hu hread₀ (hreads'.current_congr hread ht)]
    exact haccepts u₀ u' (hread₀.closed hu) hread ht
  | refuses x hreads' herror hbegins hrefuses =>
    refine .refuses x (hreads.trans hreads') herror hbegins fun u u' e hu hread ht he => ?_
    obtain ⟨u₀, hread₀, hread⟩ := Reads.append_iff.mp hread
    rw [hsame u u₀ hu hread₀ (hreads'.current_congr hread ht)]
    exact hrefuses u₀ u' e (hread₀.closed hu) hread ht he

/-- A parser that does the same as another one in front of the token that is being looked at is
decided if that one is. -/
theorem congr {q : Parse α} (h : Decided p V s)
    (hsame : ∀ u, u.Closed → u.current.token = s.current.token → q u = p u) : Decided q V s := by
  refine behind (.refl s) h fun u u₀ hu hread ht => ?_
  obtain rfl := Reads.nil_iff.mp hread
  exact hsame u hu ht

end Decided

/-! ## Small parsers -/

section Rules

variable {V : List Token → Prop} {p : Parse α} {f : α → Parse β} {t : Token}

/-- A result is given whatever comes next. -/
theorem decided_pure (a : α) : Decided (pure a) V s := by
  refine .accepts a (.refl s) fun u u' _ hread _ => ?_
  rw [Reads.nil_iff.mp hread]
  rfl

/-- A parser that reports a fault of the token that is being looked at is decided, if what is in
front of the token is as it should be. -/
theorem decided_of_fault (fault : ParseFault) (hV : (∀ max, fault ≠ .nestingTooDeep max) → V [])
    (hsame : ∀ u, u.current.token = s.current.token →
      p u = .error (.invalid u.current.position fault) u) : Decided p V s := by
  refine .refuses (.fault fault) (.refl s) (by simp [Refusal.error?]) hV ?_
  intro u u' e _ hread ht he
  obtain rfl := Reads.nil_iff.mp hread
  cases he
  exact ⟨u, hsame u ht⟩

/-- A parser that fails at once is decided by the token in front, if what has been consumed may be
gone on with. -/
theorem decided_fail {fault : ParseFault} (hV : (∀ max, fault ≠ .nestingTooDeep max) → V []) :
    Decided (fail fault : Parse α) V s :=
  decided_of_fault fault hV fun _ _ => rfl

/-- A parser that expects another token is decided by the one in front, if what has been consumed
may be gone on with. -/
theorem decided_unexpected {expected : String} (hV : V []) :
    Decided (unexpected expected : Parse α) V s := by
  refine decided_of_fault (.unexpected expected s.current.token) (fun _ => hV) fun u ht => ?_
  rw [← ht]
  rfl

/-- Looking at the token in front consumes nothing. -/
theorem decided_current_bind {f : Token → Parse β} (h : Decided (f s.current.token) V s) :
    Decided (current >>= f) V s := by
  refine h.congr fun u _ ht => ?_
  rw [current_bind, ht]

/-- Behind a token that is consumed the parser goes on, unless there is an error in the place of the
next one. -/
theorem decided_advance_bind {f : Unit → Parse β} (ht : s.current.token = t) (hne : t ≠ .endOfFile)
    (h : ∀ s', Reads s [t] s' → Decided (f ()) (fun us => V (t :: us)) s') :
    Decided (advance >>= f) V s := by
  cases hnext : s.ahead.next with
  | mk item ahead =>
    cases item with
    | ok l =>
      subst ht
      have hread : Reads s [s.current.token] ⟨l, ahead⟩ := .head hne hnext (.refl _)
      refine Decided.behind hread (h _ hread) fun u u' _ hread' _ => ?_
      exact advance_bind_of_reads hread' f
    | error e =>
      -- On another stream there may be a token in this place, so nothing is said about that one.
      refine .refuses .missing (.refl s) (by simp [Refusal.error?, hnext]) False.elim ?_
      intro u u' e _ hread _ he
      obtain rfl := Reads.nil_iff.mp hread
      obtain ⟨u', hadvance⟩ := advance_of_missing he
      exact ⟨u', bind_of_error hadvance⟩

/-- A fault of a token may be reported behind it. -/
theorem decided_advance_throw (fault : ParseFault) (hV : V []) (hsame : ∀ u,
    u.current.token = s.current.token →
      p u = (advance >>= fun _ => throw (.invalid u.current.position fault) : Parse α) u) :
    Decided p V s := by
  refine .refuses (.later fault) (.refl s) ?_ (fun _ => hV) ?_
  · rw [Refusal.error?]
    split <;> simp
  · intro u u' e _ hread ht he
    obtain rfl := Reads.nil_iff.mp hread
    rw [hsame u ht]
    exact advance_throw_of_later he

/-- A given token is consumed, or something else refused. -/
theorem decided_expect_bind {f : Unit → Parse β} (hne : t ≠ .endOfFile) (hV : V [])
    (h : ∀ s', Reads s [t] s' → Decided (f ()) (fun us => V (t :: us)) s') :
    Decided (expect t >>= f) V s := by
  unfold expect
  rw [bind_assoc]
  apply decided_current_bind
  split
  · next ht => exact decided_advance_bind ht hne h
  · refine decided_of_fault (.unexpected t.describe s.current.token) (fun _ => hV) fun u ht => ?_
    rw [← ht]
    exact bind_of_error rfl

/-- A loop may be given a round for each token that can still be read. -/
theorem decided_rounds_bind {ι : Type} (loop : List Lexed → ι → Parse α) {i : ι}
    (h : Decided (Loop.unbounded loop i >>= f) V s) :
    Decided (rounds >>= fun rs => loop rs i >>= f) V s :=
  h.congr fun _ _ _ => rfl

/-! ## Sequences -/

/-- Tokens with which the writing of something begins that has a property. -/
def Viable (slots : α → List Slot) (P : α → Prop) (ts : List Token) : Prop :=
  ∃ a, P a ∧ Slot.Begins (slots a) ts

variable {slots : α → List Slot} {P : α → Prop}

/-- What is made of the result of a parser is decided if the parser is, and less may be asked of the
tokens in front of a refused one. -/
theorem decided_bind_pure {V' : List Token → Prop} (h : Decided p V s) (hV : ∀ ts, V ts → V' ts)
    (g : α → β) : Decided (p >>= fun a => pure (g a)) V' s := by
  cases h.mono hV with
  | accepts a hreads haccepts =>
    refine .accepts (g a) hreads fun u u' hu hread ht => ?_
    exact bind_of_ok (haccepts u u' hu hread ht)
  | refuses x hreads herror hbegins hrefuses =>
    refine .refuses x hreads herror hbegins fun u u' e hu hread ht he => ?_
    obtain ⟨u'', herror'⟩ := hrefuses u u' e hu hread ht he
    exact ⟨u'', bind_of_error herror'⟩

/-- A part of a parser that passes slots is decided as part of the whole if what begins these slots
is as it should be. What comes behind is decided where the slots have been filled. -/
theorem decided_bind (hs : s.Closed) (h : Decided p (Viable slots P) s) (hsound : Sound p slots P)
    (hV : ∀ a us, P a → Slot.Begins (slots a) us → V us)
    (hf : ∀ a ts s', P a → Slot.Filled (slots a) ts → Reads s ts s' → s'.Closed →
      Decided (f a) (fun us => V (ts ++ us)) s') : Decided (p >>= f) V s := by
  cases h with
  | @accepts a ts s' hreads haccepts =>
    obtain ⟨⟨ts', hfilled, hreads'⟩, hP⟩ := hsound s a s' hs (haccepts s s' hs hreads rfl)
    -- What the part has consumed and what fills its slots lead to the same state.
    obtain rfl := hreads.unique hreads' hs
    have hrest := hf a ts s' hP hfilled hreads (hreads.closed hs)
    refine hrest.behind hreads fun u u' hu hread ht => ?_
    exact bind_of_ok (haccepts u u' hu hread ht)
  | refuses x hreads herror hbegins hrefuses =>
    refine .refuses x hreads herror (fun hx => ?_) fun u u' e hu hread ht he => ?_
    · obtain ⟨a, hP, ha⟩ := hbegins hx
      exact hV a _ hP ha
    · obtain ⟨u'', herror'⟩ := hrefuses u u' e hu hread ht he
      exact ⟨u'', bind_of_error herror'⟩

end Rules

end Brisk.Parse
