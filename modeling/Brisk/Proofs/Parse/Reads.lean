import Brisk.Parse.Program
import Brisk.Proofs.Tree.Tokens

/-!
# Which tokens a parser consumes

`Reads s ts s'` says that consuming the tokens `ts` takes the state `s` to `s'`, and `Passes` that
the tokens consumed fill given slots. They are what both directions of the correctness of parsing
are about: a parser that succeeds has passed the slots of its result, and a parser that stands
before the slots of a tree passes them and succeeds.

The small parsers are described by equivalences (`expect_eq_ok_iff` and its companions), so that
they serve both directions. The loops take rounds, of which there are enough: every token that is
read makes the state smaller (`Reads.length_add_size_le`), on a stream that ends with the end of
file or an error (`State.Closed`).
-/

namespace Brisk

/-- What comes next on a stream does not change what it ends with. -/
theorem Lexemes.next_last {lexemes ahead : Lexemes} {item : Lexed}
    (h : lexemes.next = (item, ahead)) : ahead.last = lexemes.last := by
  unfold Lexemes.next at h
  split at h <;> cases h <;> rfl

namespace Parse

variable {α β : Type} {s s' s'' : State}

/-- Consuming tokens takes one state to another. The end of file is not consumed. -/
inductive Reads : State → List Token → State → Prop where
  | refl (s : State) : Reads s [] s
  | head {s s' : State} {l : Lexeme} {ahead : Lexemes} {ts : List Token}
      (hne : s.current.token ≠ .endOfFile) (hnext : s.ahead.next = (.ok l, ahead))
      (h : Reads ⟨l, ahead⟩ ts s') : Reads s (s.current.token :: ts) s'

/-! ## Sequencing -/

/-- A sequence succeeds when its parts do, one after the other. -/
theorem bind_eq_ok_iff {p : Parse α} {f : α → Parse β} {b : β} :
    (p >>= f) s = .ok b s'' ↔ ∃ a s', p s = .ok a s' ∧ f a s' = .ok b s'' := by
  show EStateM.bind p f s = .ok b s'' ↔ _
  unfold EStateM.bind
  cases h : p s with
  | ok a s' =>
    constructor
    · intro hf
      exact ⟨a, s', rfl, hf⟩
    · rintro ⟨a', s₁, ha, hf⟩
      cases ha
      exact hf
  | error e s' =>
    constructor
    · intro hf
      exact absurd hf (by simp)
    · rintro ⟨a', s₁, ha, -⟩
      exact absurd ha (by simp)

/-- A sequence goes on with the result of its first parser. -/
theorem bind_of_ok {p : Parse α} {f : α → Parse β} {a : α} (h : p s = .ok a s') :
    (p >>= f) s = f a s' := by
  show EStateM.bind p f s = f a s'
  unfold EStateM.bind
  rw [h]

/-- A sequence fails when its first part does. -/
theorem bind_of_error {p : Parse α} {f : α → Parse β} {e : ParseError} (h : p s = .error e s') :
    (p >>= f) s = .error e s' := by
  show EStateM.bind p f s = .error e s'
  unfold EStateM.bind
  rw [h]

/-- What is made of a result is given exactly if the result is. -/
theorem map_eq_ok_iff {p : Parse α} {f : α → β} {b : β} :
    (f <$> p) s = .ok b s' ↔ ∃ a, p s = .ok a s' ∧ f a = b := by
  show EStateM.map f p s = .ok b s' ↔ _
  unfold EStateM.map
  cases p s with
  | ok a s₁ =>
    simp only [EStateM.Result.ok.injEq]
    constructor
    · rintro ⟨rfl, rfl⟩
      exact ⟨a, ⟨rfl, rfl⟩, rfl⟩
    · rintro ⟨-, ⟨rfl, rfl⟩, rfl⟩
      exact ⟨rfl, rfl⟩
  | error e s₁ => simp

/-- A result is given without consuming anything. -/
@[simp]
theorem pure_eq_ok_iff {a b : α} : (pure a : Parse α) s = .ok b s' ↔ a = b ∧ s = s' := by
  show EStateM.Result.ok a s = .ok b s' ↔ _
  simp

/-- Looking at the token in front consumes nothing. -/
@[simp]
theorem current_bind (f : Token → Parse α) : (current >>= f) s = f s.current.token s := rfl

/-- Looking at the position of the token in front consumes nothing. -/
@[simp]
theorem position_bind (f : Position → Parse α) : (position >>= f) s = f s.current.position s := rfl

/-- There are as many rounds as tokens that can still be read, the one in front included. -/
@[simp]
theorem rounds_bind (f : List Lexed → Parse α) :
    (rounds >>= f) s = f (.ok s.current :: s.ahead.pending) s := rfl

/-- A parser that fails does not succeed. -/
@[simp]
theorem fail_ne_ok (fault : ParseFault) {a : α} : fail fault s ≠ .ok a s' := by
  unfold fail
  simp

/-- A parser that expects another token does not succeed. -/
@[simp]
theorem unexpected_ne_ok (expected : String) {a : α} : unexpected expected s ≠ .ok a s' := by
  unfold unexpected
  rw [current_bind]
  exact fail_ne_ok _

/-- A parser that raises an error does not succeed. -/
@[simp]
theorem throw_ne_ok (e : ParseError) {a : α} : (throw e : Parse α) s ≠ .ok a s' := by
  show EStateM.Result.error e s ≠ .ok a s'
  simp

/-! ## Consuming tokens -/

/-- Taking the token in front succeeds if the next one can be found. -/
theorem advance_eq_ok_iff {u : Unit} :
    advance s = .ok u s' ↔ s.ahead.next = (.ok s'.current, s'.ahead) := by
  unfold advance
  cases h : s.ahead.next with
  | mk item ahead =>
    cases item with
    | error e => simp
    | ok l =>
      obtain ⟨l', ahead'⟩ := s'
      simp

/-- Going on to the next token consumes the one that is being looked at. -/
theorem reads_of_advance {u : Unit} {t : Token} (h : advance s = .ok u s')
    (ht : s.current.token = t) (hne : t ≠ .endOfFile) : Reads s [t] s' := by
  subst ht
  exact .head hne (advance_eq_ok_iff.mp h) (.refl s')

namespace Reads

variable {ts us : List Token}

/-- Tokens that are consumed one behind the other are consumed together. -/
theorem trans (h : Reads s ts s') (h' : Reads s' us s'') : Reads s (ts ++ us) s'' := by
  induction h with
  | refl => exact h'
  | head hne hnext _ ih => exact .head hne hnext (ih h')

/-- Reading some tokens and then others passes through a state between them. -/
theorem append_iff : Reads s (ts ++ us) s'' ↔ ∃ s', Reads s ts s' ∧ Reads s' us s'' := by
  constructor
  · intro h
    induction ts generalizing s with
    | nil => exact ⟨s, .refl s, h⟩
    | cons t ts ih =>
      obtain _ | ⟨hne, hnext, h⟩ := h
      obtain ⟨s', h₁, h₂⟩ := ih h
      exact ⟨s', .head hne hnext h₁, h₂⟩
  · rintro ⟨s', h₁, h₂⟩
    exact h₁.trans h₂

/-- Where nothing is consumed, the state stays. -/
theorem nil_iff : Reads s [] s' ↔ s = s' := by
  constructor
  · rintro ⟨⟩
    rfl
  · rintro rfl
    exact .refl s

/-- Tokens are read from the first one on. -/
theorem cons_iff {t : Token} : Reads s (t :: ts) s'' ↔
    s.current.token = t ∧ t ≠ .endOfFile ∧ ∃ s', advance s = .ok () s' ∧ Reads s' ts s'' := by
  constructor
  · rintro (_ | ⟨hne, hnext, h⟩)
    exact ⟨rfl, hne, _, advance_eq_ok_iff.mpr hnext, h⟩
  · rintro ⟨rfl, hne, s', hadvance, h⟩
    exact .head hne (advance_eq_ok_iff.mp hadvance) h

/-- The end of the file is not among the tokens that are read. -/
theorem ne_endOfFile (h : Reads s ts s') : ∀ t ∈ ts, t ≠ .endOfFile := by
  induction h with
  | refl => simp
  | head hne _ _ ih => exact List.forall_mem_cons.mpr ⟨hne, ih⟩

/-- The first token that is read is the one that is being looked at. -/
theorem current_eq {t : Token} (h : Reads s (t :: ts) s') : s.current.token = t :=
  (cons_iff.mp h).1

end Reads

/-! ## The rounds of a loop -/

/-- Whether a stream ends with the end of file or with an error. -/
def State.Closed (s : State) : Prop := ∀ l, s.ahead.last = .ok l → l.token = .endOfFile

/-- The number of tokens that can still be read, at most. -/
def State.size (s : State) : Nat :=
  s.ahead.pending.length + if s.current.token = .endOfFile then 0 else 1

/-- A state that goes on as the rest of a source still does when tokens have been consumed. -/
theorem Reads.closed {ts : List Token} (h : Reads s ts s') (hs : s.Closed) : s'.Closed := by
  induction h with
  | refl => exact hs
  | head _ hnext _ ih =>
    apply ih
    intro l hl
    exact hs l (by rw [← hl, Lexemes.next_last hnext])

/-- Every token that is read makes the state smaller. -/
theorem Reads.length_add_size_le {ts : List Token} (h : Reads s ts s') (hs : s.Closed) :
    ts.length + s'.size ≤ s.size := by
  induction h with
  | refl => simp
  | @head s s' l ahead ts hne hnext h ih =>
    -- What repeats in the end is the end of the source, also behind the first token.
    have hclosed : State.Closed ⟨l, ahead⟩ := by
      intro l' hl'
      exact hs l' (by rw [← hl', Lexemes.next_last hnext])
    -- The token in front counts for one, and taking it leaves one fewer.
    have hstep : State.size ⟨l, ahead⟩ + 1 ≤ s.size := by
      unfold State.size
      rw [if_neg hne]
      unfold Lexemes.next at hnext
      cases hp : s.ahead.pending with
      | nil =>
        -- Nothing is pending, so what comes next is what repeats, and that is the end of file.
        rw [hp] at hnext
        simp only [Prod.mk.injEq] at hnext
        obtain ⟨hl, rfl⟩ := hnext
        have hlength : s.ahead.pending.length = 0 := by rw [hp, List.length_nil]
        split
        · exact Nat.le_of_eq (congrArg (· + 1) hlength)
        · next hne => exact absurd (hs l hl) hne
      -- The pending lexemes are one fewer.
      | cons item pending =>
        rw [hp] at hnext
        simp only [Prod.mk.injEq] at hnext
        obtain ⟨-, rfl⟩ := hnext
        simp only [List.length_cons]
        split <;> omega
    have := ih hclosed
    rw [List.length_cons]
    omega

/-- Where tokens are read, fewer can still be read. -/
theorem Reads.size_lt {ts : List Token} (h : Reads s ts s') (hs : s.Closed) (hne : ts ≠ []) :
    s'.size < s.size := by
  have hsize := h.length_add_size_le hs
  have hlen := List.length_pos_iff.mpr hne
  omega

/-- Consuming tokens that fill slots takes one state to another. -/
def Passes (slots : List Slot) (s s' : State) : Prop :=
  ∃ ts, Slot.Filled slots ts ∧ Reads s ts s'

namespace Passes

variable {slots slots' : List Slot}

/-- No slots are passed where nothing is consumed. -/
theorem nil_iff : Passes [] s s' ↔ s = s' := by
  constructor
  · rintro ⟨ts, ⟨⟩, h⟩
    exact Reads.nil_iff.mp h
  · rintro rfl
    exact ⟨[], .nil, .refl s⟩

/-- The slot of a token is passed by consuming it. -/
theorem token_iff {t : Token} :
    Passes (.token t :: slots) s s'' ↔ ∃ s', Reads s [t] s' ∧ Passes slots s' s'' := by
  constructor
  · rintro ⟨ts, hfilled, hreads⟩
    obtain _ | @⟨_, _, us, hfilled⟩ := hfilled
    obtain ⟨s', h₁, h₂⟩ := Reads.append_iff.mp (show Reads s ([t] ++ us) s'' from hreads)
    exact ⟨s', h₁, us, hfilled, h₂⟩
  · rintro ⟨s', h₁, us, hfilled, h₂⟩
    exact ⟨t :: us, .token hfilled, h₁.trans h₂⟩

/-- The slot of a dollar sign is passed with one, or without consuming anything. -/
theorem dollar_iff : Passes (.dollar :: slots) s s'' ↔
    Passes slots s s'' ∨ ∃ s', Reads s [.symbol .dollar] s' ∧ Passes slots s' s'' := by
  constructor
  · rintro ⟨ts, hfilled, hreads⟩
    obtain _ | _ | hfilled | @⟨_, us, hfilled⟩ := hfilled
    · exact .inl ⟨ts, hfilled, hreads⟩
    · obtain ⟨s', h₁, h₂⟩ :=
        Reads.append_iff.mp (show Reads s ([.symbol .dollar] ++ us) s'' from hreads)
      exact .inr ⟨s', h₁, us, hfilled, h₂⟩
  · rintro (⟨ts, hfilled, h⟩ | ⟨s', h₁, us, hfilled, h₂⟩)
    · exact ⟨ts, .blank hfilled, h⟩
    · exact ⟨_, .dollar hfilled, h₁.trans h₂⟩

/-- Slots and further ones are passed one behind the other. -/
theorem append_iff :
    Passes (slots ++ slots') s s'' ↔ ∃ s', Passes slots s s' ∧ Passes slots' s' s'' := by
  constructor
  · rintro ⟨ts, hfilled, hreads⟩
    obtain ⟨us, us', rfl, hus, hus'⟩ := Slot.Filled.append_iff.mp hfilled
    obtain ⟨s', h₁, h₂⟩ := Reads.append_iff.mp hreads
    exact ⟨s', ⟨us, hus, h₁⟩, us', hus', h₂⟩
  · rintro ⟨s', ⟨us, hus, h₁⟩, us', hus', h₂⟩
    exact ⟨us ++ us', hus.append hus', h₁.trans h₂⟩

/-- The slot of a single token is passed by consuming it. -/
theorem single_iff {t : Token} : Passes [.token t] s s' ↔ Reads s [t] s' := by
  rw [token_iff]
  constructor
  · rintro ⟨s₁, h, h'⟩
    rwa [nil_iff.mp h'] at h
  · intro h
    exact ⟨s', h, nil_iff.mpr rfl⟩

/-- A state that goes on as the rest of a source still does when slots have been passed. -/
theorem closed (h : Passes slots s s') (hs : s.Closed) : s'.Closed := by
  obtain ⟨ts, -, hreads⟩ := h
  exact hreads.closed hs

/-- Passing slots makes the state smaller by the number of their tokens at least. -/
theorem length_add_size_le (h : Passes slots s s') (hs : s.Closed) :
    (Slot.tokens slots).length + s'.size ≤ s.size := by
  obtain ⟨ts, hfilled, hreads⟩ := h
  have h₁ := hreads.length_add_size_le hs
  have h₂ := hfilled.length_tokens_le
  omega

/-- Passing slots with tokens makes the state smaller. -/
theorem size_lt (h : Passes slots s s') (hs : s.Closed) (hne : Slot.tokens slots ≠ []) :
    s'.size < s.size := by
  have hsize := h.length_add_size_le hs
  have hlen := List.length_pos_iff.mpr hne
  omega

end Passes

/-- An item with tokens and the separator behind it are two tokens at least. -/
theorem Passes.size_add_two_le {slots : List Slot} {t : Token} (h : Passes slots s s')
    (hread : Reads s' [t] s'') (hs : s.Closed) (hne : Slot.tokens slots ≠ []) :
    s''.size + 2 ≤ s.size := by
  have hitem := h.size_lt hs hne
  have hseparator := hread.size_lt (h.closed hs) (by simp)
  omega

/-- A round that has passed an item and the separator behind it leaves further rounds, as many as
the tokens need that can still be read. -/
theorem Passes.rounds_left {slots : List Slot} {t : Token} {r : Lexed} {rs : List Lexed}
    (h : Passes slots s s') (hread : Reads s' [t] s'') (hs : s.Closed)
    (hne : Slot.tokens slots ≠ []) (hsize : s.size ≤ (r :: rs).length) :
    rs ≠ [] ∧ s''.size ≤ rs.length := by
  have hlt := h.size_add_two_le hread hs hne
  rw [List.length_cons] at hsize
  refine ⟨List.ne_nil_of_length_pos ?_, ?_⟩ <;> omega

/-- There is a round for each token that can still be read, and at least one. -/
theorem size_le_length_rounds (s : State) :
    s.size ≤ (Except.ok s.current :: s.ahead.pending : List Lexed).length := by
  unfold State.size
  rw [List.length_cons]
  split <;> omega

/-! ## Small parsers -/

/-- An expected token is consumed, if it is not the end of the source. -/
theorem expect_eq_ok_iff {t : Token} (ht : t ≠ .endOfFile) {u : Unit} :
    expect t s = .ok u s' ↔ Reads s [t] s' := by
  unfold expect
  rw [current_bind, Reads.cons_iff]
  by_cases h : s.current.token = t
  · simp [h, ht, Reads.nil_iff]
  · simp [h]

/-- In a sequence, the token in front is consumed once it is known which one it is. -/
theorem advance_bind_eq_ok_iff {t : Token} (ht : s.current.token = t) (hne : t ≠ .endOfFile)
    {f : Unit → Parse α} {a : α} :
    (advance >>= f) s = .ok a s'' ↔ ∃ s', Reads s [t] s' ∧ f () s' = .ok a s'' := by
  rw [bind_eq_ok_iff]
  constructor
  · intro h
    obtain ⟨⟨⟩, s', hadvance, h⟩ := h
    exact ⟨s', reads_of_advance hadvance ht hne, h⟩
  · intro h
    obtain ⟨s', hreads, h⟩ := h
    obtain ⟨-, -, s₁, hadvance, hnil⟩ := Reads.cons_iff.mp hreads
    rw [Reads.nil_iff.mp hnil] at hadvance
    exact ⟨(), s', hadvance, h⟩

/-- Going on from a token that is read is going on behind it. -/
theorem advance_bind_of_reads {t : Token} (h : Reads s [t] s') (f : Unit → Parse α) :
    (advance >>= f) s = f () s' := by
  obtain ⟨-, -, s₁, hadvance, hnil⟩ := Reads.cons_iff.mp h
  rw [Reads.nil_iff.mp hnil] at hadvance
  exact bind_of_ok hadvance

/-- A token that is read where it is expected is consumed. -/
theorem expect_of_reads {t : Token} (h : Reads s [t] s') : expect t s = .ok () s' :=
  (expect_eq_ok_iff (Reads.cons_iff.mp h).2.1).mpr h

/-- In a sequence, an expected token is consumed and then the next parser goes on. -/
theorem expect_bind_eq_ok_iff {t : Token} (ht : t ≠ .endOfFile) {f : Unit → Parse α} {a : α} :
    (expect t >>= f) s = .ok a s'' ↔ ∃ s', Reads s [t] s' ∧ f () s' = .ok a s'' := by
  rw [bind_eq_ok_iff]
  constructor
  · intro h
    obtain ⟨⟨⟩, s', hexpect, h⟩ := h
    exact ⟨s', (expect_eq_ok_iff ht).mp hexpect, h⟩
  · intro h
    obtain ⟨s', hreads, h⟩ := h
    exact ⟨(), s', (expect_eq_ok_iff ht).mpr hreads, h⟩

/-- A name is consumed. -/
theorem identifier_eq_ok_iff {name : String} :
    identifier s = .ok name s' ↔ Reads s [.identifier name] s' := by
  unfold identifier
  rw [current_bind, Reads.cons_iff]
  cases s.current.token with
  | identifier x =>
    simp only [bind_eq_ok_iff, pure_eq_ok_iff, Reads.nil_iff]
    constructor
    · rintro ⟨⟨⟩, s₁, h, rfl, rfl⟩
      exact ⟨rfl, by simp, s₁, h, rfl⟩
    · rintro ⟨hname, -, s₁, h, rfl⟩
      exact ⟨(), s₁, h, Token.identifier.inj hname, rfl⟩
  | endOfFile | symbol | keyword | str | int | float => simp

/-- In a sequence, a name is consumed and then the next parser goes on with it. -/
theorem identifier_bind_eq_ok_iff {f : String → Parse α} {a : α} :
    (identifier >>= f) s = .ok a s'' ↔
      ∃ name s', Reads s [.identifier name] s' ∧ f name s' = .ok a s'' := by
  rw [bind_eq_ok_iff]
  simp only [identifier_eq_ok_iff]

/-- The mark of a mutable name is consumed if it is there, and nothing otherwise. -/
theorem mutability_eq_ok_iff {mutable : Bool} :
    mutability s = .ok mutable s' ↔
      (mutable = true ∧ Reads s [.keyword .mutKey] s') ∨
        (mutable = false ∧ s.current.token ≠ .keyword .mutKey ∧ s = s') := by
  unfold mutability
  rw [current_bind, Reads.cons_iff]
  by_cases h : s.current.token = .keyword .mutKey
  · rw [if_pos h, bind_eq_ok_iff]
    simp only [pure_eq_ok_iff, Reads.nil_iff]
    constructor
    · rintro ⟨⟨⟩, s₁, h₁, rfl, rfl⟩
      exact .inl ⟨rfl, h, by simp, s₁, h₁, rfl⟩
    · rintro (⟨rfl, -, -, s₁, h₁, rfl⟩ | ⟨-, hne, -⟩)
      · exact ⟨(), s₁, h₁, rfl, rfl⟩
      · exact absurd h hne
  · rw [if_neg h, pure_eq_ok_iff]
    simp only [h, false_and, and_false, false_or, ne_eq, not_false_iff, true_and]
    constructor
    · rintro ⟨rfl, rfl⟩
      exact ⟨rfl, rfl⟩
    · rintro ⟨rfl, rfl⟩
      exact ⟨rfl, rfl⟩

end Parse

end Brisk
