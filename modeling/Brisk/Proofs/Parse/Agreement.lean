import Brisk.Proofs.Parse.Parser
import Brisk.Proofs.Parse.Rounds
import Brisk.Proofs.Token.Scanning
import Brisk.Proofs.Token.Stream

/-!
# A parser agrees with the grammar

A `Parser` stands for a state of the grammar when that has the same token in front and the stream of
the tokens that the scanner has not yet found, and when as many levels may still be opened
(`Parser.Stands`). From there it comes to the result of the grammar, and stands for the state that
the grammar leaves (`Parser.Agrees`). That is shown of each parser from the parsers that it is made
of, with one rule for each way in which they are put together, and then of all levels by induction
on their number (`Parser.opens_levels`).

An error leaves a parser in the middle of what it was doing. But a level that was opened is left in
any case (`Parser.Agrees.nested`), so that as many are open behind an error as in front of it.

The buffer of the scanner, and what its reader has read ahead, are not part of a state. They do not
matter for how many requests are made, which is why `Parser.Agrees` has one number of them for
all parsers that stand for the same state.
-/

namespace Brisk

namespace Parser

open Parse (State)

/-- What a parser has not looked at yet. -/
def stream (p : Parser) : Lexemes := p.scanner.source.lexemes p.scanner.limits

/-- What the grammar sees of a parser. -/
def state (p : Parser) : State := ⟨⟨p.current, p.position⟩, p.stream⟩

/-- Whether a parser stands for a state in which as many levels as given may still be opened, and
has never had more of them open than may be. -/
structure Stands (limits : Limits) (n : Nat) (s : State) (p : Parser) : Prop where
  valid : p.scanner.reader.Valid
  state : p.state = s
  bound : p.bound = limits.nesting
  levels : p.depth + n = limits.nesting
  deepest : p.deepest ≤ limits.nesting
  limits : p.scanner.limits = limits

/-- What a parser stands for is the rest of a source, so it goes on as such rests do. -/
theorem Stands.closed {limits : Limits} {n : Nat} {s : State} {p : Parser}
    (h : p.Stands limits n s) : s.Closed := h.state ▸ Source.closed_lexemes _ _ _

/-- The result of a parser of the grammar, and the state that it leaves. -/
def outcome {α : Type} (q : Parse α) (s : State) : Except ParseError α × State :=
  match q s with
  | .ok a s' => (.ok a, s')
  | .error e s' => (.error e, s')

/-- A parser of the grammar that accepts leaves the state that it has come to. -/
theorem outcome_of_ok {α : Type} {q : Parse α} {s s' : State} {a : α} (h : q s = .ok a s') :
    outcome q s = (.ok a, s') := by
  unfold outcome
  rw [h]

/-- One that refuses leaves the state in which it did. -/
theorem outcome_of_error {α : Type} {q : Parse α} {s s' : State} {e : ParseError}
    (h : q s = .error e s') : outcome q s = (.error e, s') := by
  unfold outcome
  rw [h]

/-- Whether parsing agrees with the grammar from a state on: every parser that stands for the state
comes to the result of the grammar, and then stands for the state that the grammar leaves, with as
many levels open as before. All of them make the same number of requests. -/
def Agrees {α : Type} (limits : Limits) (n : Nat) (m : Parsing α) (q : Parse α) (s : State) :
    Prop :=
  ∃ k, ∀ p : Parser, p.Stands limits n s → ∃ p', m p = some ((outcome q s).1, p') ∧
    p'.Stands limits n (outcome q s).2 ∧ p.scanner.after k = some p'.scanner

variable {α β ι : Type} {limits : Limits} {n : Nat} {s : State}

/-! ## Rules -/

section Rules

variable {m : Parsing α} {q : Parse α}

/-- A result is given on both sides without a request. -/
theorem agrees_pure (a : α) : Agrees limits n (pure a) (pure a) s :=
  ⟨0, fun p hp => ⟨p, rfl, hp, rfl⟩⟩

/-- An error is raised on both sides without a request. -/
theorem agrees_throw (e : ParseError) :
    Agrees limits n (throw e : Parsing α) (throw e) s :=
  ⟨0, fun p hp => ⟨p, rfl, hp, rfl⟩⟩

/-- A parser of the grammar may be put in the place of one that does the same. -/
theorem Agrees.congr {q' : Parse α} (h : Agrees limits n m q s) (hq : q' s = q s) :
    Agrees limits n m q' s := by
  unfold Agrees outcome
  rw [hq]
  exact h

/-- Only streams that end with the end of file or an error are those of a source. -/
theorem agrees_of_closed (h : s.Closed → Agrees limits n m q s) : Agrees limits n m q s := by
  by_cases hs : s.Closed
  · exact h hs
  · exact ⟨0, fun p hp => absurd hp.closed hs⟩

/-- Sequences agree when their parts do. -/
theorem Agrees.bind {f : α → Parsing β} {g : α → Parse β} (hm : Agrees limits n m q s)
    (hf : ∀ a s', q s = .ok a s' → Agrees limits n (f a) (g a) s') :
    Agrees limits n (m >>= f) (q >>= g) s := by
  obtain ⟨j, hm⟩ := hm
  -- The requests of the second parser follow those of the first.
  cases hq : q s with
  | ok a s' =>
    obtain ⟨k, hf⟩ := hf a s' hq
    have hresult : outcome (q >>= g) s = outcome (g a) s' := by
      unfold outcome
      rw [Parse.bind_of_ok hq]
    refine ⟨j + k, fun p hp => ?_⟩
    obtain ⟨p₁, hrun₁, hp₁, hafter₁⟩ := hm p hp
    rw [outcome_of_ok hq] at hrun₁ hp₁
    obtain ⟨p₂, hrun₂, hp₂, hafter₂⟩ := hf p₁ hp₁
    rw [hresult]
    refine ⟨p₂, by rw [Running.bind_of_ok hrun₁, hrun₂], hp₂, ?_⟩
    rw [Scanner.after_add, hafter₁]
    exact hafter₂
  -- What follows an error asks for nothing more.
  | error e s' =>
    rw [Agrees, outcome_of_error (Parse.bind_of_error hq)]
    refine ⟨j, fun p hp => ?_⟩
    obtain ⟨p₁, hrun₁, hp₁, hafter₁⟩ := hm p hp
    rw [outcome_of_error hq] at hrun₁ hp₁
    exact ⟨p₁, Running.bind_of_error hrun₁, hp₁, hafter₁⟩

/-- What agrees does so when it is one of two possibilities. -/
theorem agrees_some (h : Agrees limits n m q s) :
    Agrees limits n (some <$> m) (some <$> q) s := by
  rw [map_eq_pure_bind]
  exact h.bind fun _ _ _ => agrees_pure _

/-- A choice agrees if both branches do, each under its condition. -/
theorem agrees_ite {c : Prop} [Decidable c] {m' : Parsing α} {q' : Parse α}
    (hm : c → Agrees limits n m q s) (hm' : ¬c → Agrees limits n m' q' s) :
    Agrees limits n (if c then m else m') (if c then q else q') s := by
  split
  · next h => exact hm h
  · next h => exact hm' h

/-! ## Tokens -/

/-- The token that is looked at is that of the state. -/
theorem agrees_token_bind {f : Token → Parsing α} {g : Token → Parse α}
    (h : Agrees limits n (f s.current.token) (g s.current.token) s) :
    Agrees limits n (token >>= f) (Parse.current >>= g) s := by
  obtain ⟨k, h⟩ := h
  refine ⟨k, fun p hp => ?_⟩
  have htoken : token p = some (.ok s.current.token, p) := hp.state ▸ rfl
  rw [Running.bind_of_ok htoken]
  exact h p hp

/-- The place of the token in front is the same on both sides. -/
theorem agrees_place_bind {f : Position → Parsing α} {g : Position → Parse α}
    (h : Agrees limits n (f s.current.position) (g s.current.position) s) :
    Agrees limits n (place >>= f) (Parse.position >>= g) s := by
  obtain ⟨k, h⟩ := h
  refine ⟨k, fun p hp => ?_⟩
  have hplace : place p = some (.ok s.current.position, p) := hp.state ▸ rfl
  rw [Running.bind_of_ok hplace]
  exact h p hp

/-- A request is answered with what comes next on the stream, and leaves the stream behind it. -/
theorem Stands.advance {p : Parser} (hp : p.Stands limits n s) :
    ∃ p', advance p = some ((outcome Parse.advance s).1, p') ∧
      p'.Stands limits n (outcome Parse.advance s).2 ∧ p.scanner.after 1 = some p'.scanner := by
  -- The scanner gives the lexeme that comes next in the source, and reads on behind it.
  obtain ⟨scanner, hscan, hvalid, hsource, hkeeps⟩ := Scanner.scan_source hp.valid
  have hnext : s.ahead.next = ((p.scanner.source.lexeme p.scanner.limits).1,
      scanner.source.lexemes scanner.limits) := by
    rw [hsource, hkeeps, ← hp.state]
    exact Source.lexemes_next _ _
  have hafter : p.scanner.after 1 = some scanner := by
    rw [Scanner.after, hscan]
    rfl
  unfold outcome Parser.advance Parse.advance
  rw [hscan, hnext]
  -- A token is put in front, and a fault is left where the state has it.
  cases (p.scanner.source.lexeme p.scanner.limits).1 with
  | ok l =>
    exact ⟨_, rfl, ⟨hvalid, rfl, hp.bound, hp.levels, hp.deepest, hkeeps.trans hp.limits⟩, hafter⟩
  | error e =>
    refine ⟨_, rfl, ⟨hvalid, ?_, hp.bound, hp.levels, hp.deepest, hkeeps.trans hp.limits⟩, hafter⟩
    rw [← hp.state]
    rfl

/-- Taking the token in front makes one request, for the next one. -/
theorem agrees_advance : Agrees limits n advance Parse.advance s := ⟨1, fun _ => Stands.advance⟩

/-- A fault is reported at the place of the token in front, which is the same on both sides. -/
theorem agrees_fail (fault : ParseFault) :
    Agrees limits n (fail fault : Parsing α) (Parse.fail fault) s := by
  refine ⟨0, fun p hp => ⟨p, ?_, hp, rfl⟩⟩
  rw [← hp.state]
  rfl

/-- A token that is not expected is reported at its place, which is the same on both sides. -/
theorem agrees_unexpected (expected : String) :
    Agrees limits n (unexpected expected : Parsing α) (Parse.unexpected expected) s :=
  agrees_token_bind (agrees_fail _)

/-- A certain token is taken or refused on both sides. -/
theorem agrees_consume (t : Token) : Agrees limits n (consume t) (Parse.expect t) s :=
  agrees_token_bind (agrees_ite (fun _ => agrees_advance) fun _ => agrees_unexpected _)

/-- A result is returned behind the token that closes it. -/
theorem agrees_close (t : Token) (a : α) : Agrees limits n (do consume t; return a)
    (do Parse.expect t; return a) s :=
  (agrees_consume t).bind fun _ _ _ => agrees_pure a

/-- A name is taken or refused on both sides. -/
theorem agrees_identifier : Agrees limits n identifier Parse.identifier s := by
  refine agrees_token_bind ?_
  cases s.current.token with
  | identifier name => exact agrees_advance.bind fun _ _ _ => agrees_pure name
  | endOfFile | symbol | keyword | str | int | float => exact agrees_unexpected _

/-- The mark of a mutable name is taken on both sides if it is there. -/
theorem agrees_mutability : Agrees limits n mutability Parse.mutability s :=
  agrees_token_bind (agrees_ite (fun _ => agrees_advance.bind fun _ _ _ => agrees_pure _)
    fun _ => agrees_pure _)

/-! ## Nesting -/

/-- A level that is opened is left again, with a result and with an error. -/
theorem Agrees.nested (h : Agrees limits n m q s) : Agrees limits (n + 1) (nested m) q s := by
  obtain ⟨k, h⟩ := h
  refine ⟨k, fun p hp => ?_⟩
  -- The deepest level is the one that is opened, or was already there.
  have hlevels := hp.levels
  have hdeeper : p.deeper.Stands limits n s :=
    ⟨hp.valid, hp.state, hp.bound, by simp only [deeper]; omega,
      max_le hp.deepest (by omega), hp.limits⟩
  obtain ⟨p', hrun, hp', hafter⟩ := h p.deeper hdeeper
  have hlevels' := hp'.levels
  refine ⟨p'.shallower, ?_, ⟨hp'.valid, hp'.state, hp'.bound, ?_, hp'.deepest, hp'.limits⟩, hafter⟩
  · -- A level may be opened, since not all are used up.
    have hopen : ¬p.bound ≤ p.depth := by
      rw [hp.bound]
      omega
    unfold Parser.nested
    rw [if_neg hopen, hrun]
    rfl
  · -- There is a level to leave: the one that has been opened.
    simp only [shallower]
    omega

/-- No level is opened when none is left. -/
theorem agrees_tooDeep :
    Agrees limits 0 (Parser.nested m) (Parse.fail (.nestingTooDeep limits.nesting)) s := by
  obtain ⟨k, h⟩ := agrees_fail (.nestingTooDeep limits.nesting)
  refine ⟨k, fun p hp => ?_⟩
  have hclosed : p.bound ≤ p.depth := by
    have hlevels := hp.levels
    rw [hp.bound]
    omega
  have hrun : Parser.nested m p = fail (.nestingTooDeep limits.nesting) p := by
    unfold Parser.nested
    rw [if_pos hclosed, hp.bound]
  rw [hrun]
  exact h p hp

end Rules

/-! ## Loops -/

/-- A loop agrees with one that has enough rounds when their steps agree, as long as they go on with
fewer tokens. -/
theorem agrees_loop {margin : Nat} {loop : List Lexed → ι → Parse α}
    {step : (ι → Parse α) → ι → Parse α} (hloop : Parse.Loop margin loop step)
    (hmargin : margin ≤ 1) {m : ι → Parsing α}
    (hstep : ∀ i s, s.Closed →
      (∀ j s', s'.size < s.size → Agrees limits n (m j) (Parse.Loop.unbounded loop j) s') →
      Agrees limits n (m i) (step (Parse.Loop.unbounded loop) i) s) (i : ι) (s : State) :
    Agrees limits n (m i) (Parse.Loop.unbounded loop i) s := by
  induction hsize : s.size using Nat.strong_induction_on generalizing i s with
  | _ size ih =>
    subst hsize
    refine agrees_of_closed fun hs => ?_
    exact (hstep i s hs fun j s' hlt => ih s'.size hlt j s' rfl).congr
      (hloop.unbounded_eq hmargin i hs)

/-- What comes behind a loop that is given all rounds. -/
theorem Agrees.unbounded_bind {loop : List Lexed → ι → Parse α} {i : ι} {m : Parsing α}
    {f : α → Parsing β} {g : α → Parse β}
    (hm : Agrees limits n m (Parse.Loop.unbounded loop i) s)
    (hf : ∀ a s', Parse.Loop.unbounded loop i s = .ok a s' → Agrees limits n (f a) (g a) s') :
    Agrees limits n (m >>= f) (Parse.rounds >>= fun rounds => loop rounds i >>= g) s :=
  (hm.bind hf).congr (by rw [Parse.Loop.unbounded, bind_assoc])

/-! ## Parameters -/

/-- Parameters agree from one comma to the next, with the names that have been seen. -/
theorem agrees_parameterList (seen : List String) (s : State) :
    Agrees limits n (parameterList seen)
      (Parse.Loop.unbounded (fun rs seen => Parse.parameterList seen rs) seen) s := by
  refine agrees_loop Parse.parameterLoop (Nat.le_refl 1) (fun seen s hs hmore => ?_) seen s
  rw [parameterList_eq]
  refine agrees_mutability.bind fun mutable s₁ hm => agrees_place_bind (agrees_token_bind ?_)
  cases ht : s₁.current.token with
  | identifier name =>
    refine agrees_advance.bind fun _ s₂ hname => ?_
    -- The parameter and the comma have been consumed, so fewer tokens are left.
    have hpasses : Parse.Passes (Parameter.slots ⟨name, mutable⟩) s s₂ :=
      Parse.passes_parameter hm (Parse.reads_of_advance hname ht (by simp))
    refine agrees_ite (fun _ => agrees_throw _) fun _ => agrees_token_bind ?_
    refine agrees_ite (fun hcomma => ?_) fun _ => agrees_pure _
    refine agrees_advance.bind fun _ s₃ hread => ?_
    have hread := Parse.reads_of_advance hread hcomma (by simp)
    have hsize := hpasses.size_add_two_le hread hs (Parameter.tokens_slots_ne_nil _)
    exact (hmore (name :: seen) s₃ (by omega)).bind fun _ _ _ => agrees_pure _
  | endOfFile | symbol | keyword | str | int | float => exact agrees_fail _

/-- Parameters agree with the parentheses around them. -/
theorem agrees_parameters (s : State) : Agrees limits n parameters Parse.parameters s := by
  refine (agrees_consume _).bind fun _ s₁ _ => agrees_token_bind ?_
  refine agrees_ite (fun _ => ?_) fun _ => ?_
  · exact (agrees_pure []).bind fun _ _ _ => agrees_close _ _
  · exact (agrees_parameterList [] s₁).unbounded_bind fun _ _ _ => agrees_close _ _

/-! ## Operators -/

/-- A chain agrees when its operands do. -/
theorem agrees_chain {level : Nat} {m : Parsing Expr} {q : Parse Expr} {P : Expr → Prop}
    (hm : ∀ s, Agrees limits n m q s) (hq : Parse.Sound q Expr.slots P) (left : Expr) (s : State) :
    Agrees limits n (chain level m left)
      (Parse.Loop.unbounded (fun rs left => Parse.chain level q rs left) left) s := by
  refine agrees_loop (Parse.chainLoop hq) (Nat.zero_le 1) (fun left s hs hmore => ?_) left s
  rw [chain_eq]
  refine agrees_token_bind ?_
  cases hop : Parse.binaryOp? level s.current.token with
  | none => exact agrees_pure _
  | some op =>
    refine agrees_advance.bind fun _ s₁ hread => (hm s₁).bind fun right s₂ hright => ?_
    have hread := Parse.reads_of_advance hread (Parse.binaryOp?_eq_some hop).1 (by simp)
    obtain ⟨hpasses, -⟩ := hq s₁ right s₂ (hread.closed hs) hright
    have hsize := hread.size_lt hs (by simp)
    have hsize' := hpasses.length_add_size_le (hread.closed hs)
    exact hmore _ s₂ (by omega)

/-! ## One level

Here `running` is what opens the next level at work, and `inner` what does so in the grammar. Each
parser is shown to agree on the premise that these do.
-/

/-- Whether the parsers that open a level agree with those of the grammar. -/
structure Opens (limits : Limits) (n : Nat) (running : Nested) (inner : Parse.Nested) : Prop where
  expression : ∀ s, Agrees limits n running.expression inner.expression s
  block : ∀ s, Agrees limits n running.block inner.block s
  conditional : ∀ s, Agrees limits n running.conditional inner.conditional s
  sound : inner.Sound

section Level

variable {running : Nested} {inner : Parse.Nested} (hinner : Opens limits n running inner)

include hinner

/-- Arguments agree from one comma to the next. -/
theorem agrees_argumentList (s : State) : Agrees limits n (argumentList running)
    (Parse.Loop.unbounded (fun rs (_ : Unit) => Parse.argumentList inner rs) ()) s := by
  refine agrees_loop (m := fun _ => argumentList running) (Parse.argumentLoop hinner.sound)
    (Nat.le_refl 1) (fun _ s hs hmore => ?_) () s
  rw [argumentList_eq]
  refine (hinner.expression s).bind fun e s₁ he => agrees_token_bind ?_
  obtain ⟨hpasses, -⟩ := hinner.sound.expression s e s₁ hs he
  refine agrees_ite (fun hcomma => ?_) fun _ => agrees_pure _
  refine agrees_advance.bind fun _ s₂ hread => ?_
  have hread := Parse.reads_of_advance hread hcomma (by simp)
  have hsize := hpasses.size_add_two_le hread hs e.tokens_slots_ne_nil
  exact (hmore () s₂ (by omega)).bind fun _ _ _ => agrees_pure _

/-- Arguments agree with the parentheses around them. -/
theorem agrees_arguments (s : State) :
    Agrees limits n (arguments running) (Parse.arguments inner) s := by
  unfold arguments
  refine (agrees_consume _).bind fun _ s₁ _ => agrees_token_bind ?_
  refine agrees_ite (fun _ => ?_) fun _ => ?_
  · exact (agrees_pure []).bind fun _ _ _ => agrees_close _ _
  · exact (agrees_argumentList hinner s₁).unbounded_bind fun _ _ _ => agrees_close _ _

/-- Whether there are arguments behind what may be called is seen on both sides. -/
theorem agrees_callSuffix (callee : Expr) (s : State) :
    Agrees limits n (callSuffix running callee) (Parse.callSuffix inner callee) s := by
  unfold callSuffix
  refine agrees_token_bind (agrees_ite (fun _ => ?_) fun _ => agrees_pure _)
  exact (agrees_arguments hinner s).bind fun _ _ _ => agrees_pure _

/-- The token in front selects the same kind of operand on both sides. -/
theorem agrees_primary (s : State) : Agrees limits n (primary running) (Parse.primary inner) s := by
  unfold primary
  refine agrees_token_bind ?_
  cases Parse.literal? s.current.token with
  | some l => exact agrees_advance.bind fun _ _ _ => agrees_pure _
  -- What is no literal starts with a name, a parenthesis, a hash or a bracket.
  | none =>
    cases s.current.token with
    | identifier name => exact agrees_advance.bind fun _ s₁ _ => agrees_callSuffix hinner _ s₁
    | symbol sym =>
      cases sym with
      | leftParen =>
        refine agrees_advance.bind fun _ s₁ _ => (hinner.expression s₁).bind fun e s₂ _ => ?_
        exact (agrees_consume _).bind fun _ s₃ _ => agrees_callSuffix hinner _ s₃
      | hash =>
        refine agrees_advance.bind fun _ s₁ _ => (agrees_parameters s₁).bind fun ps s₂ _ => ?_
        exact (hinner.block s₂).bind fun body s₃ _ => agrees_callSuffix hinner _ s₃
      | leftBracket =>
        refine agrees_advance.bind fun _ s₁ _ => (hinner.expression s₁).bind fun e s₂ _ => ?_
        refine (agrees_consume _).bind fun _ s₃ _ => ?_
        exact (agrees_arguments hinner s₃).bind fun _ _ _ => agrees_pure _
      | _ => exact agrees_fail _
    | endOfFile | keyword | str | int | float => exact agrees_fail _

/-- A sign in front of an operand is seen on both sides. -/
theorem agrees_unary (s : State) : Agrees limits n (unary running) (Parse.unary inner) s := by
  unfold unary
  refine agrees_token_bind ?_
  cases Parse.unaryOp? s.current.token with
  | some op =>
    refine agrees_advance.bind fun _ s₁ _ => ?_
    exact (agrees_primary hinner s₁).bind fun _ _ _ => agrees_pure _
  | none => exact agrees_primary hinner s

/-- A type behind an operand is seen on both sides. -/
theorem agrees_cast (s : State) : Agrees limits n (cast running) (Parse.cast inner) s := by
  unfold cast
  refine (agrees_unary hinner s).bind fun operand s₁ _ => agrees_token_bind ?_
  refine agrees_ite (fun _ => ?_) fun _ => agrees_pure _
  refine agrees_advance.bind fun _ s₂ _ => agrees_token_bind ?_
  cases s₂.current.token with
  | keyword k =>
    cases k with
    | type t => exact agrees_advance.bind fun _ _ _ => agrees_pure _
    | _ => exact agrees_fail _
  | endOfFile | symbol | identifier | str | int | float => exact agrees_fail _

/-- A ladder of the levels from `level` on agrees. -/
theorem agrees_ladder (k : Nat) : ∀ (level : Nat) (s : State), level + k = 8 →
    Agrees limits n (ladder (cast running) (List.range' level k))
      (Parse.ladder (Parse.cast inner) (List.range' level k)) s := by
  induction k with
  | zero =>
    intro level s _
    exact agrees_cast hinner s
  | succ k ih =>
    intro level s hlevel
    have htighter := fun s => ih (level + 1) s (by omega)
    refine (htighter s).bind fun left s₁ _ => ?_
    exact agrees_chain htighter (Parse.ladder_sound hinner.sound k (level + 1) (by omega)) left s₁

/-- The value of an assignment is one level further in on both sides. -/
theorem agrees_assignment (target : String) (s : State) :
    Agrees limits n (assignment running target) (Parse.assignment inner target) s := by
  unfold assignment
  exact (hinner.expression s).bind fun _ _ _ => agrees_pure _

/-- Whether an expression is an assignment is seen on both sides, from the token behind the first
operand. -/
theorem agrees_expressionBody (s : State) :
    Agrees limits n (expressionBody running) (Parse.expressionBody inner) s := by
  unfold expressionBody
  refine agrees_token_bind (agrees_ite (fun _ => ?_) fun _ => ?_)
  · refine agrees_advance.bind fun _ s₁ _ => agrees_identifier.bind fun target s₂ _ => ?_
    exact (agrees_consume _).bind fun _ s₃ _ => agrees_assignment hinner target s₃
  · refine (agrees_ladder hinner 7 1 s rfl).bind fun left s₁ _ => agrees_token_bind ?_
    refine agrees_ite (fun _ => ?_) fun _ => agrees_pure _
    cases left with
    | name target => exact agrees_advance.bind fun _ s₂ _ => agrees_assignment hinner target s₂
    | _ => exact agrees_fail _

/-- A condition is one level further in, in parentheses. -/
theorem agrees_condition (keyword : Keyword) (s : State) :
    Agrees limits n (condition running keyword) (Parse.condition inner keyword) s := by
  unfold condition
  refine (agrees_consume _).bind fun _ s₁ _ => agrees_token_bind ?_
  refine agrees_ite (fun _ => ?_) fun _ => agrees_fail _
  refine (hinner.expression s₁).bind fun e s₂ _ => ?_
  exact agrees_close _ _

/-- The token in front selects the same kind of statement on both sides. -/
theorem agrees_statement (s : State) :
    Agrees limits n (statement running) (Parse.statement inner) s := by
  -- What starts with no keyword of a statement is an expression on both sides.
  have hexpression : Agrees limits n
      (do
        let e ← running.expression
        consume (.symbol .semicolon)
        return .expression e)
      (do
        let e ← inner.expression
        Parse.expect (.symbol .semicolon)
        return .expression e : Parse Stmt) s :=
    (hinner.expression s).bind fun _ _ _ => agrees_close _ _
  unfold statement
  refine agrees_token_bind ?_
  cases s.current.token with
  | keyword k =>
    cases k with
    | letKey =>
      refine agrees_advance.bind fun _ s₁ _ => agrees_mutability.bind fun mutable s₂ _ => ?_
      refine agrees_identifier.bind fun name s₃ _ => (agrees_consume _).bind fun _ s₄ _ => ?_
      refine (hinner.expression s₄).bind fun value s₅ _ => ?_
      exact agrees_close _ _
    | fnKey =>
      refine agrees_advance.bind fun _ s₁ _ => agrees_identifier.bind fun name s₂ _ => ?_
      refine (agrees_parameters s₂).bind fun ps s₃ _ => ?_
      exact (hinner.block s₃).bind fun _ _ _ => agrees_pure _
    | whileKey =>
      refine agrees_advance.bind fun _ s₁ _ => ?_
      refine (agrees_condition hinner _ s₁).bind fun test s₂ _ => ?_
      exact (hinner.block s₂).bind fun _ _ _ => agrees_pure _
    | ifKey => exact (hinner.conditional s).bind fun _ _ _ => agrees_pure _
    | returnKey =>
      refine agrees_advance.bind fun _ s₁ _ => agrees_token_bind ?_
      refine agrees_ite (fun _ => ?_) fun _ => ?_
      · exact (agrees_pure none).bind fun _ _ _ => agrees_close _ _
      · exact (agrees_some (hinner.expression s₁)).bind fun _ _ _ => agrees_close _ _
    | _ => exact hexpression
  | symbol sym =>
    cases sym with
    | semicolon => exact agrees_advance.bind fun _ _ _ => agrees_pure _
    | _ => exact hexpression
  | endOfFile | identifier | str | int | float => exact hexpression

/-- A statement, and what goes on behind it. -/
theorem agrees_statement_cons {m : Parsing (List Stmt)} {q : Parse (List Stmt)} (hs : s.Closed)
    (h : ∀ s', s'.size < s.size → Agrees limits n m q s') :
    Agrees limits n (do let st ← statement running; return st :: (← m))
      (do let st ← Parse.statement inner; return st :: (← q)) s := by
  refine (agrees_statement hinner s).bind fun st s₁ hst => ?_
  obtain ⟨hpasses, -⟩ := Parse.statement_sound hinner.sound s st s₁ hs hst
  exact (h s₁ (hpasses.size_lt hs st.tokens_slots_ne_nil)).bind fun _ _ _ => agrees_pure _

/-- The statements of a block agree up to the brace that closes it. -/
theorem agrees_blockStatements (s : State) : Agrees limits n (blockStatements running)
    (Parse.Loop.unbounded (fun rs (_ : Unit) => Parse.blockStatements inner rs) ()) s := by
  refine agrees_loop (m := fun _ => blockStatements running) (Parse.blockLoop hinner.sound)
    (Nat.zero_le 1) (fun _ s hs hmore => ?_) () s
  have hstatement := agrees_statement_cons hinner hs (hmore ())
  rw [blockStatements_eq]
  refine agrees_token_bind ?_
  cases s.current.token with
  | symbol sym =>
    cases sym with
    | rightCurly => exact agrees_advance.bind fun _ _ _ => agrees_pure _
    | _ => exact hstatement
  | endOfFile => exact agrees_unexpected _
  | keyword | identifier | str | int | float => exact hstatement

/-- A block agrees with the braces around it. -/
theorem agrees_blockBody (s : State) :
    Agrees limits n (blockBody running) (Parse.blockBody inner) s := by
  unfold blockBody
  exact (agrees_consume _).bind fun _ s₁ _ => agrees_blockStatements hinner s₁

/-- What follows a conditional is seen on both sides, and is a block, another conditional or
nothing. -/
theorem agrees_alternative (s : State) :
    Agrees limits n (alternative running) (Parse.alternative inner) s := by
  unfold alternative
  refine agrees_token_bind (agrees_ite (fun _ => ?_) fun _ => agrees_pure _)
  refine agrees_advance.bind fun _ s₁ _ => agrees_token_bind ?_
  cases s₁.current.token with
  | keyword k =>
    cases k with
    | ifKey => exact (hinner.conditional s₁).bind fun _ _ _ => agrees_pure _
    | _ => exact agrees_unexpected _
  | symbol sym =>
    cases sym with
    | leftCurly => exact (hinner.block s₁).bind fun _ _ _ => agrees_pure _
    | _ => exact agrees_unexpected _
  | endOfFile | identifier | str | int | float => exact agrees_unexpected _

/-- A conditional agrees in its condition, its block and what follows. -/
theorem agrees_conditionalBody (s : State) :
    Agrees limits n (conditionalBody running) (Parse.conditionalBody inner) s := by
  unfold conditionalBody
  refine agrees_advance.bind fun _ s₁ _ => (agrees_condition hinner _ s₁).bind fun test s₂ _ => ?_
  refine (hinner.block s₂).bind fun body s₃ _ => ?_
  exact (agrees_alternative hinner s₃).bind fun _ _ _ => agrees_pure _

/-- The statements of a program agree up to the end of the source. -/
theorem agrees_topStatements (s : State) : Agrees limits n (topStatements running)
    (Parse.Loop.unbounded (fun rs (_ : Unit) => Parse.topStatements inner rs) ()) s := by
  refine agrees_loop (m := fun _ => topStatements running) (Parse.topLoop hinner.sound)
    (Nat.zero_le 1) (fun _ s hs hmore => ?_) () s
  rw [topStatements_eq]
  exact agrees_token_bind (agrees_ite (fun _ => agrees_pure _) fun _ =>
    agrees_statement_cons hinner hs (hmore ()))

end Level

/-! ## All levels -/

/-- What opens a level agrees with the grammar when it can be opened more often than there are
levels left. -/
theorem opens_levels (limits : Limits) (n : Nat) : ∀ k, n < k → Opens limits n (levels k)
    ⟨Parse.expression limits.nesting n, Parse.block limits.nesting n,
      Parse.conditional limits.nesting n⟩ := by
  have hsound := Parse.levels_sound limits.nesting n
  induction n with
  -- On the last level both sides fail with the same error.
  | zero =>
    intro k hk
    obtain ⟨k, rfl⟩ : ∃ k', k = k' + 1 := ⟨k - 1, by omega⟩
    exact ⟨fun s => agrees_tooDeep.congr rfl, fun s => agrees_tooDeep.congr rfl,
      fun s => agrees_tooDeep.congr rfl, hsound⟩
  -- One level further in there is one level less to open, and one unfolding less is needed.
  | succ n ih =>
    intro k hk
    obtain ⟨k, rfl⟩ : ∃ k', k = k' + 1 := ⟨k - 1, by omega⟩
    have hinner := ih (Parse.levels_sound limits.nesting n) k (by omega)
    exact ⟨fun s => (agrees_expressionBody hinner s).nested.congr rfl,
      fun s => (agrees_blockBody hinner s).nested.congr rfl,
      fun s => (agrees_conditionalBody hinner s).nested.congr rfl, hsound⟩

/-- A parser that opens levels does so from the number of them that is left. -/
theorem agrees_opening_bind {f : Nested → Parsing α} {q : Parse α}
    (h : Agrees limits n (f (levels (limits.nesting + 1))) q s) :
    Agrees limits n (opening >>= f) q s := by
  obtain ⟨k, h⟩ := h
  refine ⟨k, fun p hp => ?_⟩
  have hopening : opening p = some (.ok (levels (limits.nesting + 1)), p) := by
    rw [← hp.bound]
    rfl
  rw [Running.bind_of_ok hopening]
  exact h p hp

end Parser

end Brisk
