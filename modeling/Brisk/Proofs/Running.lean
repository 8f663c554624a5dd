/-!
# Computations that run

A computation that moves a state on may fail, and need not come to an end (`Running`). Its loops
take rounds for as long as these ask for another one (`Running.loop`). What a loop comes to is what
it comes to within enough rounds, so that it satisfies the equation of its recursion
(`Running.loop_eq`).
-/

namespace Brisk

/-- Computations that move a state on and may fail. They need not come to an end, and where one does
not, there is no outcome. After an error the state is the one in which the error was met. -/
abbrev Running (ε σ α : Type) := ExceptT ε (StateT σ Option) α

namespace Running

variable {ε σ α β ι : Type} {m : Running ε σ α} {f : α → Running ε σ β} {s s' : σ}

/-- What does not come to an end. -/
def never : Running ε σ α := fun _ => none

/-! ## Sequences -/

/-- A sequence goes on with the result of its first computation. -/
theorem bind_of_ok {a : α} (h : m s = some (.ok a, s')) : (m >>= f) s = f a s' := by
  show (m s).bind _ = _
  rw [h]
  rfl

/-- A sequence ends with the error of its first computation. -/
theorem bind_of_error {e : ε} (h : m s = some (.error e, s')) :
    (m >>= f) s = some (.error e, s') := by
  show (m s).bind _ = _
  rw [h]
  rfl

/-- A sequence comes to no end if its first computation does not. -/
theorem bind_of_none (h : m s = none) : (m >>= f) s = none := by
  show (m s).bind _ = _
  rw [h]
  rfl

/-- An outcome is used in a result, and an error is kept. -/
theorem map_apply (use : α → β) : (use <$> m) s = (m s).map fun (r, s') => (r.map use, s') := by
  rw [map_eq_pure_bind]
  rcases h : m s with _ | ⟨e | a, s'⟩
  · exact bind_of_none h
  · exact bind_of_error h
  · exact bind_of_ok h

/-! ## Loops -/

/-- What a round of a loop comes to. -/
inductive Round (ι α : Type) where
  | done (a : α)
  /-- Another round is taken, with `i`, and what comes of that is used in the result. -/
  | again (i : ι) (use : α → α)

/-- What is done behind a round, when `go` takes the next ones. -/
def Round.finish (go : ι → Running ε σ α) : Round ι α → Running ε σ α
  | .done a => pure a
  | .again i use => use <$> go i

/-- The last round gives the result of the loop. -/
@[simp]
theorem Round.finish_done (go : ι → Running ε σ α) (a : α) : finish go (.done a) = pure a := rfl

/-- Any other round is followed by the next ones, the result of which is used. -/
@[simp]
theorem Round.finish_again (go : ι → Running ε σ α) (i : ι) (use : α → α) :
    finish go (.again i use) = use <$> go i := rfl

/-- Takes as many rounds of a loop as given, and comes to no end if none of them is the last. -/
def loopFor (round : ι → Running ε σ (Round ι α)) : Nat → ι → Running ε σ α
  | 0, _ => never
  | n + 1, i => round i >>= Round.finish (loopFor round n)

open Classical in
/-- Takes rounds of a loop up to the last one. -/
noncomputable def loop (i : ι) (round : ι → Running ε σ (Round ι α)) : Running ε σ α := fun s =>
  if h : ∃ n, loopFor round n i s ≠ none then loopFor round h.choose i s else none

variable {round : ι → Running ε σ (Round ι α)} {go : ι → Running ε σ α} {i : ι}
  {r : Except ε α × σ}

/-- What comes of a round and of what is done behind it. -/
theorem bind_finish_eq_some_iff : (round i >>= Round.finish go) s = some r ↔
    (∃ e s', round i s = some (.error e, s') ∧ (.error e, s') = r) ∨
      (∃ a s', round i s = some (.ok (.done a), s') ∧ (.ok a, s') = r) ∨
      ∃ j use s' r', round i s = some (.ok (.again j use), s') ∧ go j s' = some r' ∧
        (r'.1.map use, r'.2) = r := by
  -- A round has no end, fails, is the last one, or asks for another one.
  rcases hround : round i s with _ | ⟨e | ⟨a | ⟨j, use⟩⟩, s'⟩
  · rw [bind_of_none hround]
    simp
  · rw [bind_of_error hround]
    simp [and_assoc]
  · rw [bind_of_ok hround]
    show some (Except.ok a, s') = some r ↔ _
    simp [and_assoc]
  · rw [bind_of_ok hround, Round.finish, map_apply, Option.map_eq_some_iff]
    simp [and_assoc]

/-- What comes of a round still comes of it when more can be done behind it. -/
theorem bind_finish_mono {go' : ι → Running ε σ α}
    (h : ∀ j s r, go j s = some r → go' j s = some r)
    (hr : (round i >>= Round.finish go) s = some r) :
    (round i >>= Round.finish go') s = some r := by
  refine bind_finish_eq_some_iff.mpr ?_
  rcases bind_finish_eq_some_iff.mp hr with hr | hr | ⟨j, use, s', r', hround, hr', hr⟩
  · exact .inl hr
  · exact .inr (.inl hr)
  · exact .inr (.inr ⟨j, use, s', r', hround, h j s' r' hr', hr⟩)

/-- Without rounds a loop comes to nothing. -/
theorem loopFor_zero_ne_some : loopFor round 0 i s ≠ some r := by simp [loopFor, never]

/-- Further rounds change nothing once a loop has ended. -/
theorem loopFor_mono {n k : Nat} (hle : n ≤ k) (h : loopFor round n i s = some r) :
    loopFor round k i s = some r := by
  induction n generalizing k i s r with
  | zero => exact absurd h loopFor_zero_ne_some
  | succ n ih =>
    -- Both counts have a round to take, and the others follow by the induction.
    obtain ⟨k, rfl⟩ : ∃ k', k = k' + 1 := ⟨k - 1, by omega⟩
    exact bind_finish_mono (fun j s r => ih (by omega)) h

/-- A loop comes to what it comes to within some number of rounds. -/
theorem loop_eq_some_iff : loop i round s = some r ↔ ∃ n, loopFor round n i s = some r := by
  unfold loop
  split
  · next h =>
    refine ⟨fun hr => ⟨_, hr⟩, fun ⟨n, hr⟩ => ?_⟩
    obtain ⟨r', hr'⟩ := Option.ne_none_iff_exists'.mp h.choose_spec
    -- The round count that has been chosen and the given one are compared, and the larger one
    -- counts.
    rcases Nat.le_total n h.choose with hle | hle
    · exact loopFor_mono hle hr
    · rw [hr', ← hr, loopFor_mono hle hr']
  · next h =>
    refine ⟨fun hr => absurd hr (by simp), fun ⟨n, hr⟩ => ?_⟩
    exact absurd ⟨n, by rw [hr]; simp⟩ h

/-- A loop takes a round, and goes on as that asks for. -/
theorem loop_eq (i : ι) (round : ι → Running ε σ (Round ι α)) :
    loop i round = round i >>= Round.finish (loop · round) := by
  refine funext fun s => Option.ext fun r => ?_
  rw [loop_eq_some_iff]
  constructor
  · rintro ⟨n, hr⟩
    cases n with
    | zero => exact absurd hr loopFor_zero_ne_some
    | succ n => exact bind_finish_mono (fun j s r h => loop_eq_some_iff.mpr ⟨n, h⟩) hr
  · intro hr
    -- One round more than what is done behind the first one takes.
    rcases bind_finish_eq_some_iff.mp hr with h | h | ⟨j, use, s', r', hround, hr', hr⟩
    · exact ⟨1, bind_finish_eq_some_iff.mpr (.inl h)⟩
    · exact ⟨1, bind_finish_eq_some_iff.mpr (.inr (.inl h))⟩
    · obtain ⟨n, hr'⟩ := loop_eq_some_iff.mp hr'
      exact ⟨n + 1, bind_finish_eq_some_iff.mpr (.inr (.inr ⟨j, use, s', r', hround, hr', hr⟩))⟩

end Running

end Brisk
