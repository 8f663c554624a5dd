import Brisk.Proofs.Token.Consumption
import Brisk.Proofs.Token.Segmentation

/-!
# A lexer that is asked again and again

A lexer can be asked for the next token without end, whatever it has answered before.
`Lexer.answer lexer n` is its answer to the request behind `n` others, and `Lexer.consumed lexer n`
are the pieces that this request takes from the source. Every request in front of the end takes at
least one piece, so the end is reached after as many requests as there are pieces, which are the
characters of the lines that can be decoded, with every line break counted once, and one for each of
the other lines (`Source.length_ofBytes`).

Iterating over the lexer asks it for the next token too, until an answer is the end of the source or
an error; from then on it asks for nothing. Both kinds of requests can be mixed (`Lexer.serve`), and
only the answers that the iteration has got itself decide when it stops
(`Lexer.finished_history_iff`).
-/

namespace Brisk

/-! ## The pieces of a source -/

namespace Source

/-- The number of characters on the lines that can be decoded, each line break counted as one. -/
def decodedLength (bytes : List UInt8) : Nat :=
  (((lines bytes).filterMap Text.ofBytes?).flatMap fun s => Text.normalize s.toList).length

/-- The number of lines that cannot be decoded. -/
def undecodableLines (bytes : List UInt8) : Nat :=
  (lines bytes).countP fun line => (Text.ofBytes? line).isNone

/-- As many pieces are placed as there are. -/
theorem length_place (p : Position) (pieces : List Piece) :
    (place p pieces).1.length = pieces.length := by
  rw [← List.length_map, map_piece_place]

/-- A text has as many pieces as characters, when its line breaks are counted as one each. -/
theorem length_piecesOfChars (cs : List Char) :
    (piecesOfChars cs).length = (Text.normalize cs).length := by
  have h := (spells_place cs .start).length_add_length
  rw [length_place] at h
  exact h.symm

/-- A source has a piece for every character and line break of its lines that can be decoded, and
one for every other line. -/
theorem length_ofBytes (bytes : List UInt8) :
    (ofBytes bytes .endOfFile).ahead.length = decodedLength bytes + undecodableLines bytes := by
  -- Line by line, the pieces are the normalised characters, or one for what cannot be decoded.
  have hpieces : ∀ ls : List (List UInt8), (ls.flatMap piecesOfLine).length =
      ((ls.filterMap Text.ofBytes?).flatMap fun s => Text.normalize s.toList).length +
        ls.countP fun line => (Text.ofBytes? line).isNone := by
    intro ls
    induction ls with
    | nil => rfl
    | cons line ls ih =>
      rw [List.flatMap_cons, List.length_append, ih, List.filterMap_cons, List.countP_cons]
      unfold piecesOfLine
      cases Text.ofBytes? line with
      | none =>
        simp only [List.length_singleton, Option.isNone_none, if_true]
        omega
      | some s =>
        simp only [length_piecesOfChars, List.flatMap_cons, List.length_append,
          Option.isNone_some, Bool.false_eq_true, if_false]
        omega
  show (place .start ((lines bytes).flatMap piecesOfLine)).1.length = _
  rw [length_place]
  exact hpieces (lines bytes)

/-- A source of bytes is laid out from the start of the text. -/
theorem laid_ofBytes (bytes : List UInt8) (ending : Ending) :
    Laid (ofBytes bytes ending).edge.position .start (ofBytes bytes ending).ahead := by
  apply laid_place
  intro piece hpiece
  obtain ⟨line, -, hpiece⟩ := List.mem_flatMap.mp hpiece
  unfold piecesOfLine at hpiece
  split at hpiece
  · exact piecesOfChars_ne_lineFeed _ piece hpiece
  · rw [List.mem_singleton.mp hpiece]
    simp

end Source

/-! ## Requests for the next token -/

namespace Lexer

/-- A lexer that has been asked `n` times for the next token. -/
def after (lexer : Lexer) : Nat → Lexer
  | 0 => lexer
  | n + 1 => (lexer.after n).next.2

/-- The answer to the request behind `n` others. -/
def answer (lexer : Lexer) (n : Nat) : Lexed := (lexer.after n).next.1

/-- The pieces that the request behind `n` others takes. -/
def consumed (lexer : Lexer) (n : Nat) : List Placed :=
  (lexer.after n).source.ahead.take
    ((lexer.after n).source.ahead.length - (lexer.after (n + 1)).source.ahead.length)

/-- Where a token or an error stands, if it stands anywhere. -/
def position? : Lexed → Option Position
  | .ok l => some l.position
  | .error e => e.position?

variable {lexer : Lexer} {m n : Nat}

/-- Requests change what is left of the source, and nothing else. -/
theorem after_eq (lexer : Lexer) (n : Nat) : lexer.after n =
    { lexer with source := { lexer.source with ahead := (lexer.after n).source.ahead } } := by
  induction n with
  | zero => rfl
  | succ n ih =>
    show (lexer.after n).next.2 =
      { lexer with source := { lexer.source with ahead := (lexer.after n).next.2.source.ahead } }
    rw [ih]
    rfl

/-- The answer to a request is found in what the requests before it have left. -/
theorem answer_eq (lexer : Lexer) (n : Nat) : lexer.answer n =
    (Scan.lexeme lexer.limits lexer.source.edge (lexer.after n).source.ahead).1 := by
  unfold answer
  rw [after_eq]
  rfl

/-- It leaves what has not been consumed for it. -/
theorem ahead_after_succ (lexer : Lexer) (n : Nat) : (lexer.after (n + 1)).source.ahead =
    (Scan.lexeme lexer.limits lexer.source.edge (lexer.after n).source.ahead).2 := by
  show (lexer.after n).next.2.source.ahead = _
  rw [after_eq]
  rfl

/-- A request takes a piece from the front, if there is one. -/
theorem after_succ_suffix (lexer : Lexer) (n : Nat) :
    (lexer.after (n + 1)).source.ahead <:+ (lexer.after n).source.ahead.drop 1 := by
  rw [ahead_after_succ]
  exact Scan.lexeme_progress _ _ _

/-- Later requests find less. -/
theorem after_suffix (lexer : Lexer) (h : m ≤ n) :
    (lexer.after n).source.ahead <:+ (lexer.after m).source.ahead := by
  induction h with
  | refl => exact List.suffix_refl _
  | step _ ih => exact ((after_succ_suffix lexer _).trans (List.drop_suffix 1 _)).trans ih

/-- Every request consumes a piece, until there are none. -/
theorem length_after_le (lexer : Lexer) (n : Nat) :
    (lexer.after n).source.ahead.length ≤ lexer.source.ahead.length - n := by
  induction n with
  | zero => exact Nat.le_refl _
  | succ n ih =>
    have h := (after_succ_suffix lexer n).length_le
    rw [List.length_drop] at h
    omega

/-- What one request takes is the part in front of what it leaves. -/
theorem consumed_append (lexer : Lexer) (n : Nat) :
    lexer.consumed n ++ (lexer.after (n + 1)).source.ahead = (lexer.after n).source.ahead := by
  obtain ⟨front, hfront⟩ := after_suffix lexer (Nat.le_add_right n 1)
  have hlength := congrArg List.length hfront
  rw [List.length_append] at hlength
  have htake : (lexer.after n).source.ahead.take front.length = front := by
    rw [← hfront, List.take_left]
  unfold consumed
  rw [← hlength, Nat.add_sub_cancel_right, htake, hfront]

/-- What requests take one after another are consecutive parts of the source. -/
theorem flatMap_consumed_append (lexer : Lexer) (n : Nat) :
    (List.range n).flatMap lexer.consumed ++ (lexer.after n).source.ahead =
      lexer.source.ahead := by
  induction n with
  | zero => rfl
  | succ n ih =>
    rw [List.range_succ, List.flatMap_append, List.flatMap_singleton, List.append_assoc,
      consumed_append, ih]

/-- An answer that names a place has taken the character there. -/
theorem mem_consumed {q : Position} (h : Scan.lexemePlace? (lexer.answer n) = some q) :
    ∃ c, ⟨.char c, q⟩ ∈ lexer.consumed n := by
  rw [answer_eq] at h
  have hconsumes := Scan.lexeme_consumes h
  rw [← ahead_after_succ, ← consumed_append] at hconsumes
  exact hconsumes.mem

/-! ## The end -/

/-- Where nothing is left, the answer is the end of the source. -/
theorem answer_of_nil (hfailure : lexer.source.edge.failure = none)
    (hnil : (lexer.after n).source.ahead = []) :
    lexer.answer n = .ok ⟨.endOfFile, lexer.source.edge.position⟩ := by
  have h := Source.lexeme_of_nil lexer.limits hfailure
  rw [answer_eq, hnil]
  exact congrArg Prod.fst h

/-- Behind the end nothing is left. -/
theorem after_of_endOfFile {l : Lexeme} (h : lexer.answer m = .ok l) (hend : l.token = .endOfFile)
    (hlt : m < n) : (lexer.after n).source.ahead = [] ∧ lexer.source.edge.failure = none ∧
      l = ⟨.endOfFile, lexer.source.edge.position⟩ := by
  rw [answer_eq] at h
  have hscan : Scan.lexeme lexer.limits lexer.source.edge (lexer.after m).source.ahead =
      (.ok l, (lexer.after (m + 1)).source.ahead) := Prod.ext h (ahead_after_succ lexer m).symm
  obtain ⟨hnil, hfailure, hl⟩ := Scan.eq_nil_of_endOfFile hscan hend
  have hsuffix := after_suffix lexer (Nat.succ_le_of_lt hlt)
  rw [Nat.succ_eq_add_one, hnil] at hsuffix
  exact ⟨List.suffix_nil.mp hsuffix, hfailure, hl⟩

/-- The end of the source is answered for ever. -/
theorem answer_of_endOfFile {l : Lexeme} (h : lexer.answer m = .ok l) (hend : l.token = .endOfFile)
    (hle : m ≤ n) : lexer.answer n = .ok l := by
  rcases Nat.eq_or_lt_of_le hle with rfl | hlt
  · exact h
  · obtain ⟨hnil, hfailure, hl⟩ := after_of_endOfFile h hend hlt
    rw [answer_of_nil hfailure hnil, hl]

/-- Places are named in reading order, up to the end. -/
theorem position?_lt {start p q : Position}
    (hlaid : Laid lexer.source.edge.position start lexer.source.ahead) (hlt : m < n)
    (hne : ∀ l, lexer.answer m = .ok l → l.token ≠ .endOfFile)
    (hm : position? (lexer.answer m) = some p) (hn : position? (lexer.answer n) = some q) :
    p < q := by
  -- In front of the end, a token or an error that stands somewhere names its place.
  have hplace : ∀ {k r}, (∀ l, lexer.answer k = .ok l → l.token ≠ .endOfFile) →
      position? (lexer.answer k) = some r →
      Consumes (lexer.after k).source.ahead r (lexer.after (k + 1)).source.ahead := by
    intro k r hk hr
    rw [ahead_after_succ]
    rw [answer_eq] at hk hr
    apply Scan.lexeme_consumes
    cases hl : (Scan.lexeme lexer.limits lexer.source.edge (lexer.after k).source.ahead).1 with
    | ok l =>
      rw [hl] at hr
      simp only [Scan.place?, if_neg (hk l hl)]
      exact hr
    | error e =>
      rw [hl] at hr
      exact hr
  obtain ⟨p₁, hlaid₁, -⟩ := hlaid.suffix (after_suffix lexer (Nat.zero_le m))
  -- The first place is followed by what the second request starts with.
  obtain ⟨-, p₂, hlaid₂, hp⟩ := (hplace hne hm).lt hlaid₁
  obtain ⟨p₃, hlaid₃, hle⟩ := hlaid₂.suffix (after_suffix lexer (Nat.succ_le_of_lt hlt))
  refine Position.lt_of_lt_of_le hp (Position.le_trans hle ?_)
  by_cases hend : ∃ l, lexer.answer n = .ok l ∧ l.token = .endOfFile
  · -- The end stands behind everything that was left.
    obtain ⟨l, hl, hend⟩ := hend
    obtain ⟨-, -, rfl⟩ := after_of_endOfFile hl hend (Nat.lt_succ_self n)
    rw [hl] at hn
    rw [← Option.some.inj hn]
    exact hlaid₃.le
  · exact ((hplace (fun l hl htoken => hend ⟨l, hl, htoken⟩) hn).lt hlaid₃).1

/-! ## Iterating among other requests -/

end Lexer

/-- What a lexer can be asked for: the next token, or the next step of an iteration. -/
inductive Request where
  | next
  | step
  deriving DecidableEq

namespace Lexer

/-- The answer to a request, and the lexer behind it. -/
def serve (lexer : Lexer) : Request → Option Lexed × Lexer
  | .next => (some lexer.next.1, lexer.next.2)
  | .step => lexer.step

/-- The answers to requests, each with the request, and the lexer behind them. -/
def history (lexer : Lexer) : List Request → List (Request × Option Lexed) × Lexer
  | [] => ([], lexer)
  | request :: requests =>
    let (answer, lexer) := lexer.serve request
    let (answers, lexer) := lexer.history requests
    ((request, answer) :: answers, lexer)

/-- Whether an iteration has got the end of the source or an error among the answers. -/
def HasStopped (answers : List (Request × Option Lexed)) : Prop :=
  ∃ answer, (.step, some answer) ∈ answers ∧ isLast answer = true

/-- An iteration is marked as finished by an answer that it has got itself. -/
theorem finished_history_iff (lexer : Lexer) (requests : List Request) :
    (lexer.history requests).2.finished = true ↔
      lexer.finished = true ∨ HasStopped (lexer.history requests).1 := by
  -- The lexer stops with the first answer that is an error or the end of the source.
  have hcons : ∀ {request answer answers}, HasStopped ((request, answer) :: answers) ↔
      (request = .step ∧ ∃ a, answer = some a ∧ isLast a = true) ∨ HasStopped answers := by
    intro request answer answers
    unfold HasStopped
    simp only [List.mem_cons, Prod.mk.injEq]
    constructor
    · rintro ⟨a, ⟨rfl, rfl⟩ | hmem, hlast⟩
      · exact .inl ⟨rfl, a, rfl, hlast⟩
      · exact .inr ⟨a, hmem, hlast⟩
    · rintro (⟨rfl, a, rfl, hlast⟩ | ⟨a, hmem, hlast⟩)
      · exact ⟨a, .inl ⟨rfl, rfl⟩, hlast⟩
      · exact ⟨a, .inr hmem, hlast⟩
  induction requests generalizing lexer with
  | nil =>
    show lexer.finished = true ↔ lexer.finished = true ∨ HasStopped []
    simp [HasStopped]
  | cons request requests ih =>
    show ((lexer.serve request).2.history requests).2.finished = true ↔ lexer.finished = true ∨
      HasStopped ((request, (lexer.serve request).1) ::
        ((lexer.serve request).2.history requests).1)
    refine (ih (lexer.serve request).2).trans ?_
    rw [hcons, ← or_assoc]
    refine or_congr_left ?_
    cases request with
    | next =>
      show lexer.finished = true ↔ _
      simp
    | step =>
      show lexer.step.2.finished = true ↔ lexer.finished = true ∨
        (Request.step = .step ∧ ∃ a, lexer.step.1 = some a ∧ isLast a = true)
      unfold step
      cases hfinished : lexer.finished <;> simp [hfinished]

/-- An iteration that has stopped gets nothing and takes nothing, and one that has not gets what the
next token is, and takes what a request for that takes. -/
theorem step_of_history (lexer : Lexer) (hfresh : lexer.finished = false)
    (requests : List Request) :
    (HasStopped (lexer.history requests).1 →
      (lexer.history requests).2.step = (none, (lexer.history requests).2)) ∧
    (¬HasStopped (lexer.history requests).1 →
      (lexer.history requests).2.step.1 = some (lexer.history requests).2.next.1 ∧
      (lexer.history requests).2.step.2.source = (lexer.history requests).2.next.2.source) := by
  have hiff := finished_history_iff lexer requests
  rw [hfresh] at hiff
  simp only [Bool.false_eq_true, false_or] at hiff
  rw [← hiff]
  unfold step
  constructor
  · intro h
    rw [if_pos h]
  · intro h
    rw [if_neg h]
    exact ⟨rfl, rfl⟩

/-- A lexer makes progress, also behind errors, on every source that can be read, whether it can be
decoded or not.

- It answers with the end of the source after as many requests as there are characters and lines
  that cannot be decoded, or earlier.
- What its requests take are consecutive parts of the source, so nothing is taken twice; and a
  request that is answered with a token or with a fault has taken the character where it stands.
- Up to the end, tokens and faults stand one behind another.
- The end is answered for ever, at the same place.
- An iteration gets what a request for the next token would be answered, until it has got the end or
  an error itself, and from then on it gets nothing and takes nothing, whatever other requests there
  are. -/
theorem makes_progress (limits : Limits) (bytes : List UInt8) :
    let lexer : Lexer := ⟨limits, .ofBytes bytes .endOfFile, false⟩
    (∃ n, n ≤ Source.decodedLength bytes + Source.undecodableLines bytes ∧
      ∃ l, lexer.answer n = .ok l ∧ l.token = .endOfFile) ∧
    (∀ n, (List.range n).flatMap lexer.consumed ++ (lexer.after n).source.ahead =
      lexer.source.ahead) ∧
    (∀ n q, Scan.lexemePlace? (lexer.answer n) = some q → ∃ c, ⟨.char c, q⟩ ∈ lexer.consumed n) ∧
    (∀ m n p q, m < n → (∀ l, lexer.answer m = .ok l → l.token ≠ .endOfFile) →
      position? (lexer.answer m) = some p → position? (lexer.answer n) = some q → p < q) ∧
    (∀ m n l, lexer.answer m = .ok l → l.token = .endOfFile → m ≤ n →
      lexer.answer n = .ok l) ∧
    ∀ requests,
      (HasStopped (lexer.history requests).1 →
        (lexer.history requests).2.step = (none, (lexer.history requests).2)) ∧
      (¬HasStopped (lexer.history requests).1 →
        (lexer.history requests).2.step.1 = some (lexer.history requests).2.next.1 ∧
        (lexer.history requests).2.step.2.source = (lexer.history requests).2.next.2.source) := by
  intro lexer
  have hend : (lexer.after lexer.source.ahead.length).source.ahead = [] := by
    have h := length_after_le lexer lexer.source.ahead.length
    rw [Nat.sub_self] at h
    exact List.length_eq_zero_iff.mp (Nat.le_zero.mp h)
  refine ⟨⟨lexer.source.ahead.length, ?_, _, answer_of_nil rfl hend, rfl⟩,
    flatMap_consumed_append lexer, fun _ _ => mem_consumed, ?_, fun _ _ _ => answer_of_endOfFile,
    step_of_history lexer rfl⟩
  · exact Nat.le_of_eq (Source.length_ofBytes bytes)
  · intro m n p q
    exact position?_lt (Source.laid_ofBytes bytes .endOfFile)

/-- Between two names a character that starts no token: its fault stands behind the first name, the
iteration stops with it, and other requests get to the end nevertheless. -/
theorem makes_progress_fault :
    let lexer : Lexer := ⟨.standard, .ofBytes (Text.bytes "a ?b") .endOfFile, false⟩
    lexer.answer 1 = .error (.invalid ⟨1, 3⟩ (.notAToken '?')) ∧
      (∃ c, ⟨.char c, ⟨1, 3⟩⟩ ∈ lexer.consumed 1) ∧ (⟨1, 1⟩ : Position) < ⟨1, 3⟩ ∧
      (∀ n, 3 ≤ n → lexer.answer n = .ok ⟨.endOfFile, ⟨1, 5⟩⟩) ∧
      (lexer.history [.step]).2.step.1 = some (lexer.history [.step]).2.next.1 ∧
      (lexer.history [.step, .step]).2.step.1 = none := by
  intro lexer
  have hname : lexer.answer 0 = .ok ⟨.identifier "a", ⟨1, 1⟩⟩ := by decide +kernel
  have hfault : lexer.answer 1 = .error (.invalid ⟨1, 3⟩ (.notAToken '?')) := by decide +kernel
  have hend : lexer.answer 3 = .ok ⟨.endOfFile, ⟨1, 5⟩⟩ := by decide +kernel
  have hstops : ∀ requests, HasStopped (lexer.history requests).1 ↔
      (lexer.history requests).2.finished = true := by
    intro requests
    rw [finished_history_iff]
    exact (or_iff_right Bool.false_ne_true).symm
  obtain ⟨-, -, htaken, hbehind, hlast, hiterates⟩ := makes_progress .standard (Text.bytes "a ?b")
  refine ⟨hfault, htaken 1 ⟨1, 3⟩ (by rw [hfault]; rfl), ?_, fun n => hlast 3 n _ hend rfl, ?_, ?_⟩
  · refine hbehind 0 1 ⟨1, 1⟩ ⟨1, 3⟩ Nat.zero_lt_one ?_ (by rw [hname]; rfl) (by rw [hfault]; rfl)
    rintro l hl htoken
    rw [hname] at hl
    rw [← Except.ok.inj hl] at htoken
    exact absurd htoken (by decide)
  · have hgoesOn : ¬HasStopped (lexer.history [.step]).1 := by
      rw [hstops]
      decide +kernel
    exact ((hiterates [.step]).2 hgoesOn).1
  · have hstopped : HasStopped (lexer.history [.step, .step]).1 := by
      rw [hstops]
      decide +kernel
    rw [(hiterates [.step, .step]).1 hstopped]

end Lexer

end Brisk
