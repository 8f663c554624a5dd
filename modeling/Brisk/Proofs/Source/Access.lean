import Brisk.Proofs.Token.Blanks
import Brisk.Proofs.Token.Requests

/-!
# Reading a source character by character

A source can be asked to show its next character and to hand it out, in any order and without end.
`history` gives the answers to any sequence of such accesses and what they leave of the source.

Whatever the sequence is, the pieces of the source are gone through in their order, each once
(`Source.history_consumes`). A character is passed by the access that hands it out, and a line that
cannot be decoded by the first access that gets to it, which reports it. So the characters that have
been handed out are those of the pieces that have been passed, and they determine the position
(`Laid.of_append`).
-/

namespace Brisk

/-! ## Accesses and answers -/

/-- What a source can be asked for: to show the next character, or to hand it out. -/
inductive Access where
  | peek
  | bump
  deriving DecidableEq

/-- An answer to an access: a character, the end of the source, or an error. -/
abbrev Answer := Except ReadError (Option Char)

/-- The answers to accesses, each with the access, and what is left behind them. -/
def history {σ : Type} (serve : σ → Access → Answer × σ) (s : σ) :
    List Access → List (Access × Answer) × σ
  | [] => ([], s)
  | access :: accesses =>
    let (answer, s) := serve s access
    let (answers, s) := history serve s accesses
    ((access, answer) :: answers, s)

/-- The characters that have been handed out. -/
def handedOut (answers : List (Access × Answer)) : List Char :=
  answers.filterMap fun
    | (.bump, .ok c) => c
    | _ => none

/-- What has been delivered: the characters that have been handed out, and nothing in the place of
each error. -/
def delivered (answers : List (Access × Answer)) : List (Option Char) :=
  answers.filterMap fun
    | (.bump, .ok c) => c.map some
    | (_, .error _) => some none
    | _ => none

/-- The characters that have been handed out are among what has been delivered. -/
theorem filterMap_delivered (answers : List (Access × Answer)) :
    (delivered answers).filterMap id = handedOut answers := by
  induction answers with
  | nil => rfl
  | cons entry answers ih =>
    unfold delivered handedOut at ih ⊢
    rw [List.filterMap_cons, List.filterMap_cons]
    match entry with
    | (.peek, .ok c) => exact ih
    | (.bump, .ok none) => exact ih
    | (.bump, .ok (some c)) => exact congrArg (c :: ·) ih
    | (.peek, .error e) | (.bump, .error e) => exact ih

/-- What was handed out by answers and further ones was handed out one behind the other. -/
theorem handedOut_append (answers answers' : List (Access × Answer)) :
    handedOut (answers ++ answers') = handedOut answers ++ handedOut answers' :=
  List.filterMap_append

/-- Nothing is handed out at the edge of a source. -/
theorem handedOut_of_close {edge : Edge} {answers : List (Access × Answer)}
    (h : ∀ a ∈ answers, a.2 = edge.close none) : handedOut answers = [] := by
  unfold handedOut
  rw [List.filterMap_eq_nil_iff]
  rintro ⟨access, answer⟩ ha
  obtain rfl : answer = edge.close none := h _ ha
  unfold Edge.close
  cases access <;> cases edge.failure <;> rfl

/-- Only a line that cannot be decoded is read as no character. -/
theorem Piece.char?_eq_none_iff {piece : Piece} : piece.char? = none ↔ piece = .undecodable := by
  cases piece <;> simp [char?]

/-- A piece that can be handed out can be shown. -/
theorem Piece.exists_raw? {piece : Piece} {c : Char} (h : piece.char? = some c) :
    ∃ raw, piece.raw? = some raw := by
  cases piece with
  | char d => exact ⟨d, rfl⟩
  | lineBreak style => exact ⟨style.first, rfl⟩
  | undecodable => exact absurd h (by simp [char?])

namespace Source

/-- The answer to an access, and the source behind it. -/
def access (src : Source) : Access → Answer × Source
  | .peek => src.peek
  | .bump => src.bump

/-- What is still to be delivered: characters, and nothing in the place of each line that cannot be
decoded. -/
def remaining (src : Source) : List (Option Char) := src.ahead.map (·.piece.char?)

variable {src : Source} {p : Placed} {rest : List Placed}

/-! ## Single accesses -/

/-- At the edge every access is answered by what the edge gives. -/
theorem access_of_nil (h : src.ahead = []) (access : Access) :
    src.access access = (src.edge.close none, src) := by
  obtain ⟨ahead, edge⟩ := src
  simp only at h
  subst h
  cases access <;> rfl

/-- A line that cannot be decoded is dropped by the error that reports it. -/
theorem access_of_undecodable (h : src.ahead = p :: rest) (hp : p.piece = .undecodable)
    (access : Access) :
    src.access access = (.error (.invalidUtf8 p.position.line), { src with ahead := rest }) := by
  obtain ⟨ahead, edge⟩ := src
  simp only at h
  subst h
  cases access with
  | peek =>
    unfold Source.access peek Edge.peek
    simp only [hp, Piece.raw?]
  | bump =>
    unfold Source.access bump Edge.bump
    simp only [hp, Piece.char?]

/-- A character that is handed out is passed. -/
theorem bump_of_char {c : Char} (h : src.ahead = p :: rest) (hc : p.piece.char? = some c) :
    src.bump = (.ok (some c), { src with ahead := rest }) := by
  obtain ⟨ahead, edge⟩ := src
  simp only at h
  subst h
  unfold bump Edge.bump
  simp only [hc]

/-- A character that is shown stays where it is. -/
theorem peek_of_char {c : Char} (h : src.ahead = p :: rest) (hc : p.piece.raw? = some c) :
    src.peek = (.ok (some c), src) := by
  obtain ⟨ahead, edge⟩ := src
  simp only at h
  subst h
  unfold peek Edge.peek
  simp only [hc]

/-- An access to a source that has pieces left passes the first of them and delivers it, or it shows
a character and changes nothing. -/
theorem access_of_cons (h : src.ahead = p :: rest) (access : Access) :
    (∃ answer, src.access access = (answer, { src with ahead := rest }) ∧
      delivered [(access, answer)] = [p.piece.char?]) ∨
    (access = .peek ∧ ∃ raw, p.piece.raw? = some raw ∧
      src.access access = (.ok (some raw), src)) := by
  cases hchar : p.piece.char? with
  -- What cannot be decoded is dropped by either access.
  | none =>
    refine .inl ⟨_, access_of_undecodable h (Piece.char?_eq_none_iff.mp hchar) access, ?_⟩
    cases access <;> rfl
  | some c =>
    -- A character is only looked at by the one access, and handed out by the other.
    cases access with
    | peek =>
      obtain ⟨raw, hraw⟩ := Piece.exists_raw? hchar
      exact .inr ⟨rfl, raw, hraw, peek_of_char h hraw⟩
    | bump => exact .inl ⟨_, bump_of_char h hchar, rfl⟩

/-! ## Sequences of accesses -/

/-- At the edge all accesses are answered alike, and change nothing. -/
theorem history_of_nil (h : src.ahead = []) (accesses : List Access) :
    (∀ a ∈ (history access src accesses).1, a.2 = src.edge.close none) ∧
      (history access src accesses).2 = src := by
  induction accesses with
  | nil => exact ⟨by simp [history], rfl⟩
  | cons a accesses ih =>
    rw [history, access_of_nil h]
    exact ⟨List.forall_mem_cons.mpr ⟨rfl, ih.1⟩, ih.2⟩

/-- Accesses pass pieces from the front of a source, in their order and each once, and only behind
the last of them they get to its edge. -/
theorem history_consumes (accesses : List Access) (src : Source) :
    ∃ inside beyond passed, (history access src accesses).1 = inside ++ beyond ∧
      src.ahead = passed ++ (history access src accesses).2.ahead ∧
      (history access src accesses).2.edge = src.edge ∧
      delivered inside = passed.map (·.piece.char?) ∧
      (beyond ≠ [] → (history access src accesses).2.ahead = []) ∧
      ∀ a ∈ beyond, a.2 = src.edge.close none := by
  induction accesses generalizing src with
  | nil => exact ⟨[], [], [], rfl, rfl, rfl, rfl, by simp, by simp⟩
  | cons a accesses ih =>
    -- Nothing is passed any more once there is nothing ahead, and every answer is that of the edge.
    cases hahead : src.ahead with
    | nil =>
      obtain ⟨hclose, hleft⟩ := history_of_nil hahead (a :: accesses)
      exact ⟨[], _, [], rfl, by rw [hleft, hahead]; rfl, by rw [hleft], rfl,
        fun _ => by rw [hleft, hahead], hclose⟩
    | cons p rest =>
      rcases access_of_cons hahead a with ⟨answer, haccess, hanswer⟩ | ⟨rfl, raw, -, haccess⟩
      · obtain ⟨inside, beyond, passed, hanswers, hpassed, hedge, hdelivered, hrest⟩ :=
          ih { src with ahead := rest }
        rw [history, haccess]
        refine ⟨(a, answer) :: inside, beyond, p :: passed, congrArg _ hanswers,
          congrArg _ hpassed, hedge, ?_, hrest⟩
        calc delivered ((a, answer) :: inside)
            = delivered [(a, answer)] ++ delivered inside := List.filterMap_append (l := [_])
          _ = (p :: passed).map (·.piece.char?) := by
            rw [hanswer, hdelivered]
            rfl
      · -- Looking at a character leaves the source as it is.
        obtain ⟨inside, beyond, passed, hanswers, hpassed, hrest⟩ := ih src
        rw [history, haccess]
        exact ⟨(.peek, _) :: inside, beyond, passed, congrArg _ hanswers,
          by rw [← hpassed, hahead], hrest⟩

/-- Every character that is asked for passes a piece, if there is one. -/
theorem length_history_le (accesses : List Access) (src : Source) :
    (history access src accesses).2.ahead.length ≤ src.ahead.length - accesses.count .bump := by
  induction accesses generalizing src with
  | nil => exact Nat.le_refl _
  | cons a accesses ih =>
    rw [history, List.count_cons]
    cases hahead : src.ahead with
    | nil =>
      have hnext := ih src
      rw [hahead, List.length_nil] at hnext
      rw [access_of_nil hahead]
      simp only
      omega
    | cons p rest =>
      rw [List.length_cons]
      -- Only taking a character passes a piece, and it passes one at most.
      rcases access_of_cons hahead a with ⟨answer, haccess, -⟩ | ⟨rfl, raw, -, haccess⟩
      · have hnext := ih { src with ahead := rest }
        rw [haccess]
        simp only at hnext ⊢
        split <;> omega
      · have hnext := ih src
        rw [hahead, List.length_cons] at hnext
        rw [haccess, if_neg (by decide)]
        exact hnext

end Source

/-! ## Positions -/

/-- Behind pieces that have been passed, the source goes on at the position behind their
characters. -/
theorem Laid.of_append {stop p : Position} {passed rest : List Placed}
    (h : Laid stop p (passed ++ rest)) :
    Laid stop (p.behind (passed.filterMap (·.piece.char?))) rest := by
  induction passed generalizing p with
  | nil => exact h
  | cons q passed ih =>
    -- A piece that no character stands for lies at the end, where the source stays.
    cases hq : q.piece.char? with
    | some c =>
      have hnext := ih (h.of_spells (.single hq))
      rw [List.filterMap_cons, hq]
      exact hnext
    | none =>
      have hnext := h.2.2
      rw [Piece.char?_eq_none_iff.mp hq] at hnext
      rw [List.filterMap_cons, hq]
      exact ih hnext

/-- A source that is laid out from a position has its next character there. -/
theorem Source.position_of_laid {src : Source} {p : Position}
    (h : Laid src.edge.position p src.ahead) : src.position = p := by
  obtain ⟨ahead, edge⟩ := src
  cases ahead with
  | nil => exact h.symm
  | cons q rest => exact h.1

end Brisk
