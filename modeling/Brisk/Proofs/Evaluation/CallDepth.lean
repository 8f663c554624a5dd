import Brisk.Proofs.Evaluation.Ends
import Brisk.Proofs.Evaluation.Monitor

/-!
# The bound on nested calls only filters

With a lower bound on nested calls a program does what it does with a higher one, unless it wants to
nest more calls than the lower bound allows. Then it fails, and what it has written until then is
the beginning of what it would write (`call_depth_only_filters`).

The evaluation with the lower bound abridges the one with the higher bound: both write to the same
output, and one that is stopped leaves an output that the other adds to.

That there are never more calls in progress than the bound allows is said of the evaluator in three
ways. A call for which there is no room fails and changes nothing, and any other evaluates the body
of the function one call deeper, in which calls are such calls again. No monitor that interferes
only where more calls are in progress changes what a run comes to. And of all that a run visits,
nothing is visited with more calls in progress.
-/

namespace Brisk

open Eval

/-- Both evaluations do the same, but the first may want to nest more calls than it may. -/
def Abridgement.shallow (callDepth : Nat) : Abridgement where
  depths _ := True
  same out out' := out' = out
  cut e out out' := e = .error (.callDepthExceeded callDepth) ∧ out.GrowsTo out'
  cut_of_growsTo h hlater := ⟨h.1, trans_of Output.GrowsTo h.2 hlater⟩

namespace Eval

variable {α : Type} {callDepth : Nat} {action action' : Nat → Eval α}

/-- How the outcome `r` with a bound on nested calls compares to the outcome `r'` with a higher one:
it is the same, or an error because more calls were to be nested than are allowed, with the
beginning of the output. -/
def FilteredBy (callDepth : Nat) (r r' : Outcome α) : Prop :=
  r = r' ∨ ∃ m, r = .error (.error (.callDepthExceeded callDepth)) m ∧
    m.output.bytes <+: r'.machine.output.bytes

/-- If the second evaluation ends, so does the first, whose outcome is filtered. -/
def Filters (callDepth : Nat) (action action' : Nat → Eval α) : Prop :=
  ∀ (m : Machine) (r' : Outcome α), Ends action' m r' →
    (∃ r, Ends action m r) ∧ ∀ r, Ends action m r → FilteredBy callDepth r r'

/-- An evaluation that abridges another one up to calls that are nested too deeply filters it,
however many rounds either of them needs. -/
theorem filters_of_abridges (hsteady : Steady action)
    (h : ∀ rounds, Abridges (.shallow callDepth) (action rounds) (action' rounds)) :
    Filters callDepth action action' := by
  rintro m r' ⟨hfinished, rounds, hr'⟩
  have houtcomes := (h rounds).outcomes m m ⟨rfl, rfl, trivial, rfl⟩
  rw [hr'] at houtcomes
  -- With these rounds, the first evaluation ends in one of the two ways.
  obtain ⟨r, hr, hfiltered⟩ : ∃ r, Ends action m r ∧ FilteredBy callDepth r r' := by
    generalize hr : action rounds m = r at houtcomes
    refine ⟨r, ?_⟩
    cases houtcomes with
    | alike halike =>
      obtain rfl := eq_of_alike id halike
      exact ⟨⟨hfinished, rounds, hr⟩, .inl rfl⟩
    | @cut e m' _ hcut =>
      obtain ⟨rfl, hgrows⟩ := hcut
      exact ⟨⟨trivial, rounds, hr⟩, .inr ⟨m', rfl, hgrows.bytes_prefix⟩⟩
  refine ⟨⟨r, hr⟩, fun r₁ hr₁ => ?_⟩
  rw [hr₁.unique hsteady hr]
  exact hfiltered

end Eval

/-- With a lower bound, wanting to nest more calls is the only way to be stopped. -/
theorem Bounds.admits_shallow {callDepth callDepth' : Nat} (hle : callDepth ≤ callDepth')
    (rounds : Nat) :
    (Abridgement.shallow callDepth).Admits ⟨callDepth, rounds⟩ ⟨callDepth', rounds⟩ where
  depths _ := trivial
  writes := Abridgement.writes_of_same_eq rfl
  rounds := .inl rfl
  calls := by
    refine .inr ⟨hle, fun out out' hsame => ?_⟩
    obtain rfl : out' = out := hsame
    exact ⟨rfl, refl_of Output.GrowsTo out'⟩

/-- A lower bound on nested calls only filters. If a program ends with a higher bound, it ends with
the lower one: with the same value or error, environment and output, or failing because more calls
were to be nested than are allowed, with the beginning of the output.

And in no run are there ever more calls in progress than the bound allows, those of the halves of a
composition included: a monitor that interferes only with calls that are entered beyond the bound
never interferes, and what a run visits is visited within the bound. For a call that has no room
fails at once, and one that has enters its function one call deeper. -/
theorem call_depth_only_filters {callDepth callDepth' : Nat} (hle : callDepth ≤ callDepth') :
    (∀ p : Program, Filters callDepth (fun rounds => (Bounds.mk callDepth rounds).run p)
      (fun rounds => (Bounds.mk callDepth' rounds).run p)) ∧
    (∀ p : Program, Filters callDepth (fun rounds => (Bounds.mk callDepth rounds).runInSession p)
      (fun rounds => (Bounds.mk callDepth' rounds).runInSession p)) ∧
    (∀ (bounds : Bounds) (p : Program) (m : Machine), m.depth = 0 →
      ∀ monitor : Monitor, monitor.SilentWithin bounds.callDepth →
        bounds.runUnder monitor p m = bounds.run p m ∧
        bounds.runInSessionUnder monitor p m = bounds.runInSession p m) ∧
    (∀ (bounds : Bounds) (p : Program) (m : Machine), m.depth = 0 →
      ∀ n t m', (Task.block p.statements).Visits bounds m n t m' ∨
        (Task.statements .unit p.statements).Visits bounds m n t m' →
        n ≤ bounds.callDepth ∧ m'.depth = n) ∧
    ∀ (bounds : Bounds) (traced : Bool) (f : Function) (vs : List Value) (m : Machine),
      bounds.call traced f vs m =
        if vs.length = f.arity then
          if m.depth < bounds.callDepth then
            inCall (f.enterTraced bounds.call bounds.rounds traced vs) m
          else .error (.error (.callDepthExceeded bounds.callDepth)) m
        else .error (.error (.arityMismatch f.arity vs.length)) m := by
  refine ⟨fun p => ?_, fun p => ?_, fun bounds p m hm monitor hsilent => ?_,
    fun bounds p m hm n t m' hvisits => ?_, Bounds.call_unfold⟩
  · exact filters_of_abridges (Bounds.steady_run callDepth p)
      fun rounds => Bounds.run_abridges (Bounds.admits_shallow hle rounds) p
  · exact filters_of_abridges (Bounds.steady_runInSession callDepth p)
      fun rounds => Bounds.runInSession_abridges (Bounds.admits_shallow hle rounds) p
  · exact ⟨Bounds.runUnder_eq hsilent p hm, Bounds.runInSessionUnder_eq hsilent p hm⟩
  · -- Each part that is visited adds the call that it is made in, and no call is entered at the
    -- limit.
    have hdepth : m'.depth = m.depth + n ∧
        (m.depth ≤ bounds.callDepth → m'.depth ≤ bounds.callDepth) := by
      obtain h | h := hvisits
      · exact h.depth_eq
      · exact h.depth_eq
    rw [hm, Nat.zero_add] at hdepth
    obtain ⟨rfl, hbound⟩ := hdepth
    exact ⟨hbound (Nat.zero_le _), rfl⟩

/-- A program that prints a line and then calls a composition, for the halves of which there is no
room with a bound of one: it ends early, with the first line. A monitor that ends the evaluation as
soon as a second call is in progress notices nothing with that bound, and does end the evaluation
with a bound of two. -/
theorem call_depth_only_filters_halves :
    let p : Program := ⟨[.expression (.call false (.name "print") [.literal (.int 1)]),
      .expression (.call false (.paren (.binary .compose (.name "print") (.name "print")))
        [.literal (.int 2)])]⟩
    let alarm : Monitor := fun n _ _ body => if n ≤ 1 then body else throw .exhausted
    1 ≤ 2 ∧ ∃ m₁ m₂,
      Ends (fun rounds => (Bounds.mk 1 rounds).run p) ⟨.initial, .unlimited, 0⟩
        (.error (.error (.callDepthExceeded 1)) m₁) ∧
      Ends (fun rounds => (Bounds.mk 2 rounds).run p) ⟨.initial, .unlimited, 0⟩ (.ok .unit m₂) ∧
      m₁.output.bytes <+: m₂.output.bytes ∧
      (Bounds.mk 1 4).runUnder alarm p ⟨.initial, .unlimited, 0⟩ =
        .error (.error (.callDepthExceeded 1)) m₁ ∧
      ∃ m₃, (Bounds.mk 2 4).runUnder alarm p ⟨.initial, .unlimited, 0⟩ = .error .exhausted m₃ := by
  intro p alarm
  have hle : 1 ≤ 2 := by decide
  -- Four rounds are enough, as the program has no loop.
  obtain ⟨m₁, hlow⟩ : ∃ m₁, (Bounds.mk 1 4).run p ⟨.initial, .unlimited, 0⟩ =
      .error (.error (.callDepthExceeded 1)) m₁ := ⟨_, rfl⟩
  obtain ⟨m₂, hhigh⟩ : ∃ m₂, (Bounds.mk 2 4).run p ⟨.initial, .unlimited, 0⟩ = .ok .unit m₂ :=
    ⟨_, rfl⟩
  have hends₁ : Ends (fun rounds => (Bounds.mk 1 rounds).run p) ⟨.initial, .unlimited, 0⟩
      (.error (.error (.callDepthExceeded 1)) m₁) := ⟨trivial, 4, hlow⟩
  have hends₂ : Ends (fun rounds => (Bounds.mk 2 rounds).run p) ⟨.initial, .unlimited, 0⟩
      (.ok .unit m₂) := ⟨trivial, 4, hhigh⟩
  -- The alarm only goes off for a call that is nested in another one.
  have hsilent : alarm.SilentWithin 1 := fun n f vs body m hn _ => by
    show (if n ≤ 1 then body else throw .exhausted) m = body m
    rw [if_pos hn]
  obtain ⟨hfilters, -, hmonitor, -, -⟩ := call_depth_only_filters hle
  refine ⟨hle, m₁, m₂, hends₁, hends₂, ?_, ?_, _, rfl⟩
  · obtain ⟨-, hfiltered⟩ := hfilters p ⟨.initial, .unlimited, 0⟩ _ hends₂
    obtain h | ⟨m, h, hprefix⟩ := hfiltered _ hends₁
    · cases h
    · cases h
      exact hprefix
  · rw [(hmonitor ⟨1, 4⟩ p ⟨.initial, .unlimited, 0⟩ rfl alarm hsilent).1, hlow]

end Brisk
