import Brisk.Proofs.Evaluation.Ends

/-!
# Outputs with limited room

A program that writes to an output with room for a limited number of bytes does what it does with an
output that takes everything, as long as there is room. The write for which there is none fails, and
that ends the program: what has been written is then the beginning of what would be written, to
exactly the limit (`output_cut_exactly`).

The evaluation with limited room abridges the one without. While there is room, both have written
the same, and the room that is left is the limit less what has been written. The one write that
exceeds it stops the first evaluation when the second has written more than the limit, which it
cannot take back.
-/

namespace Brisk

open Eval

namespace Output

/-- What a chunk adds to the bytes that have been written. -/
theorem bytes_push (written : Array Chunk) (room : Option Nat) (c : Chunk) :
    bytes ⟨written.push c, room⟩ = bytes ⟨written, room⟩ ++ c.bytes := by
  unfold bytes
  rw [Array.toList_push, List.flatMap_append, List.flatMap_singleton]

end Output

/-- Both evaluations do the same, but the output of the first has room for a limited number of bytes
and that of the second for all. -/
def Abridgement.limited (limit : Nat) : Abridgement where
  depths _ := True
  same out out' := out'.room = none ∧ out'.bytes.length ≤ limit ∧
    out = ⟨out'.written, some (limit - out'.bytes.length)⟩
  cut e out out' := e = .error (.io Output.fullReason) ∧ limit < out'.bytes.length ∧
    out.bytes = out'.bytes.take limit
  cut_of_growsTo := by
    rintro e out out' later ⟨he, hlimit, hbytes⟩ hlater
    obtain ⟨rest, hrest⟩ := hlater.bytes_prefix
    have hlength : out'.bytes.length ≤ later.bytes.length := hlater.bytes_prefix.length_le
    refine ⟨he, by omega, ?_⟩
    rw [← hrest, List.take_append_of_le_length (by omega)]
    exact hbytes

/-- A write succeeds in both outputs, or exceeds the room of the first. -/
theorem Abridgement.writes_limited (limit : Nat) : (limited limit).Writes := by
  rintro out ⟨written, room⟩ ⟨rfl, hle, rfl⟩ origin text
  -- The unlimited output takes every text as a whole.
  have hwrite : Output.write ⟨written, none⟩ origin text =
      (true, ⟨written.push ⟨origin, Text.bytes text⟩, none⟩) := rfl
  have hbytes := Output.bytes_push written none ⟨origin, Text.bytes text⟩
  have hlength := congrArg List.length hbytes
  rw [List.length_append] at hlength
  simp only at hlength
  by_cases hroom : (Text.bytes text).length ≤ limit - (Output.bytes ⟨written, none⟩).length
  · -- The text has room, and what is left is still the limit less what has been written.
    have hwrite₁ : Output.write
        ⟨written, some (limit - (Output.bytes ⟨written, none⟩).length)⟩ origin text =
        (true, ⟨written.push ⟨origin, Text.bytes text⟩,
          some (limit - (Output.bytes ⟨written, none⟩).length - (Text.bytes text).length)⟩) :=
      if_pos hroom
    have hroomLeft : limit - (Output.bytes ⟨written, none⟩).length - (Text.bytes text).length =
        limit - (Output.bytes ⟨written.push ⟨origin, Text.bytes text⟩, none⟩).length := by
      rw [hlength, Nat.sub_sub]
    have hwithin :
        (Output.bytes ⟨written.push ⟨origin, Text.bytes text⟩, none⟩).length ≤ limit := by
      omega
    rw [hwrite, hwrite₁, hroomLeft]
    exact .inl ⟨rfl, rfl, hwithin, rfl⟩
  · -- The text is cut where the room ends, which is where all that is written reaches the limit.
    have hwrite₁ : Output.write
        ⟨written, some (limit - (Output.bytes ⟨written, none⟩).length)⟩ origin text =
        (false, ⟨written.push ⟨origin, (Text.bytes text).take
          (limit - (Output.bytes ⟨written, none⟩).length)⟩, some 0⟩) :=
      if_neg hroom
    have hbeyond :
        limit < (Output.bytes ⟨written.push ⟨origin, Text.bytes text⟩, none⟩).length := by
      omega
    have hcut : Output.bytes ⟨written.push ⟨origin, (Text.bytes text).take
        (limit - (Output.bytes ⟨written, none⟩).length)⟩, some 0⟩ =
        (Output.bytes ⟨written.push ⟨origin, Text.bytes text⟩, none⟩).take limit := by
      rw [Output.bytes_push, hbytes, List.take_append, List.take_of_length_le hle]
      rfl
    rw [hwrite, hwrite₁]
    exact .inr ⟨rfl, rfl, hbeyond, hcut⟩

/-- With less room for output, running out of it is the only way to be stopped. -/
theorem Bounds.admits_limited (bounds : Bounds) (limit : Nat) :
    (Abridgement.limited limit).Admits bounds bounds where
  depths _ := trivial
  writes := Abridgement.writes_limited limit
  rounds := .inl rfl
  calls := .inl rfl

/-- The second machine is the first one, but its output has room for a limited number of bytes, of
which there is left what has not been written. -/
structure Machine.Limited (limit : Nat) (m m' : Machine) : Prop where
  environment_eq : m'.environment = m.environment
  depth_eq : m'.depth = m.depth
  output_eq : m'.output = ⟨m.output.written, some (limit - m.output.bytes.length)⟩

namespace Eval

variable {α : Type} {limit : Nat} {action : Nat → Eval α}

/-- How the outcome `r` with an output that takes everything compares to the outcome `r'` with one
that has room for a limited number of bytes. If all that is written has room, they are the same.
Otherwise the second is an error because the output is full, and exactly the bytes up to the limit
have been written. -/
def CutAt (limit : Nat) (r r' : Outcome α) : Prop :=
  (r.machine.output.bytes.length ≤ limit → Alike (Machine.Limited limit) id r r') ∧
    (limit < r.machine.output.bytes.length →
      ∃ m', r' = .error (.error (.io Output.fullReason)) m' ∧
        m'.output.bytes = r.machine.output.bytes.take limit)

/-- If an evaluation ends with an output that takes everything, it ends with an output that has room
for a limited number of bytes, and is cut where there is no more room. -/
def CutsExactly (limit : Nat) (action : Nat → Eval α) : Prop :=
  ∀ (environment : Environment) (depth : Nat) (r : Outcome α),
    Ends action ⟨environment, .unlimited, depth⟩ r →
    (∃ r', Ends action ⟨environment, .limited limit, depth⟩ r') ∧
    ∀ r', Ends action ⟨environment, .limited limit, depth⟩ r' → CutAt limit r r'

/-- Finished outcomes of an evaluation that abridges one without a limit compare like this. -/
theorem cutAt_of_outcomes {r r' : Outcome α} (h : (Abridgement.limited limit).Outcomes r' r)
    (hfinished : r.Finished) : r'.Finished ∧ CutAt limit r r' := by
  cases h with
  | alike halike =>
    -- Without a cut both outputs are the same, and so is how the evaluation ends.
    cases halike with
    | @ok a m' m hlevel =>
      obtain ⟨-, hle, hout⟩ := hlevel.output
      refine ⟨trivial, fun _ => ?_, fun hlt => absurd hlt (Nat.not_lt.mpr hle)⟩
      exact .ok ⟨hlevel.environment_eq.symm, hlevel.depth_eq.symm, hout⟩
    | @error e m' m hlevel =>
      obtain ⟨-, hle, hout⟩ := hlevel.output
      have hfinished' : Outcome.Finished (.error e m' : Outcome α) := by
        cases e with
        | error cause => trivial
        | exhausted => exact hfinished.elim
      refine ⟨hfinished', fun _ => ?_, fun hlt => absurd hlt (Nat.not_lt.mpr hle)⟩
      exact .error ⟨hlevel.environment_eq.symm, hlevel.depth_eq.symm, hout⟩
  | @cut e m' _ hcut =>
    -- A cut is the error of a full output, whatever the other evaluation does later.
    obtain ⟨rfl, hlt, hbytes⟩ := hcut
    exact ⟨trivial, fun hle => absurd hlt (Nat.not_lt.mpr hle), fun _ => ⟨m', rfl, hbytes⟩⟩

/-- An evaluation that abridges itself with less room has its output cut exactly, however many
rounds it needs. -/
theorem cutsExactly_of_abridges (hsteady : Steady action)
    (h : ∀ rounds, Abridges (.limited limit) (action rounds) (action rounds)) :
    CutsExactly limit action := by
  rintro environment depth r ⟨hfinished, rounds, hr⟩
  have houtcomes := (h rounds).outcomes ⟨environment, .limited limit, depth⟩
    ⟨environment, .unlimited, depth⟩ ⟨rfl, rfl, trivial, rfl, Nat.zero_le limit, rfl⟩
  rw [hr] at houtcomes
  obtain ⟨hfinished', hcut⟩ := cutAt_of_outcomes houtcomes hfinished
  have hends : Ends action ⟨environment, .limited limit, depth⟩ _ := ⟨hfinished', rounds, rfl⟩
  refine ⟨⟨_, hends⟩, fun r' hr' => ?_⟩
  rw [hr'.unique hsteady hends]
  exact hcut

end Eval

/-- An output with limited room cuts a program exactly where there is no more room. With room for
everything that it writes, the program ends like with an output that takes everything. With less
room it fails because the output is full, when exactly the bytes up to the limit have been
written. -/
theorem output_cut_exactly (callDepth limit : Nat) :
    (∀ p : Program, CutsExactly limit fun rounds => (Bounds.mk callDepth rounds).run p) ∧
    ∀ p : Program, CutsExactly limit fun rounds => (Bounds.mk callDepth rounds).runInSession p := by
  refine ⟨fun p => ?_, fun p => ?_⟩
  · exact cutsExactly_of_abridges (Bounds.steady_run callDepth p)
      fun rounds => Bounds.run_abridges (Bounds.admits_limited ⟨callDepth, rounds⟩ limit) p
  · exact cutsExactly_of_abridges (Bounds.steady_runInSession callDepth p)
      fun rounds => Bounds.runInSession_abridges (Bounds.admits_limited ⟨callDepth, rounds⟩ limit) p

/-- A program that would print six bytes, to an output that has room for three. -/
theorem output_cut_exactly_print :
    let p : Program := ⟨[.expression (.call false (.name "print") [.literal (.str "hello")])]⟩
    ∃ m m',
      Ends (fun rounds => (Bounds.mk 1 rounds).run p) ⟨.initial, .unlimited, 0⟩ (.ok .unit m) ∧
      Ends (fun rounds => (Bounds.mk 1 rounds).run p) ⟨.initial, .limited 3, 0⟩
        (.error (.error (.io Output.fullReason)) m') ∧
      m.output.bytes = Text.bytes "hello\n" ∧ m'.output.bytes = Text.bytes "hel" := by
  intro p
  -- Four rounds are enough, as the program has no loop.
  obtain ⟨m, hrun, hbytes⟩ : ∃ m, (Bounds.mk 1 4).run p ⟨.initial, .unlimited, 0⟩ = .ok .unit m ∧
      m.output.bytes = Text.bytes "hello\n" := ⟨_, rfl, by decide +kernel⟩
  have hends : Ends (fun rounds => (Bounds.mk 1 rounds).run p) ⟨.initial, .unlimited, 0⟩
      (.ok .unit m) := ⟨trivial, 4, hrun⟩
  have hmore : 3 < m.output.bytes.length := by
    rw [hbytes]
    decide +kernel
  obtain ⟨⟨r', hr'⟩, hcut⟩ := (output_cut_exactly 1 3).1 p .initial 0 _ hends
  obtain ⟨m', rfl, hbytes'⟩ := (hcut r' hr').2 hmore
  refine ⟨m, m', hends, hr', hbytes, hbytes'.trans ?_⟩
  show m.output.bytes.take 3 = _
  rw [hbytes]
  decide +kernel

end Brisk
