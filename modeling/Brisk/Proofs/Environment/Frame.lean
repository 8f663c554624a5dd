import Brisk.Environment
import Mathlib.Data.List.Forall2
import Mathlib.Order.Defs.Unbundled

/-!
# What the operations on an environment leave alone

`Environment.Frame fresh` relates the environments before and after an operation that may declare
the names in `fresh`. The scopes are the same ones. The innermost scope may have gained bindings of
fresh names and the others have gained none. No binding is lost, none changes its mark, and only
those that are marked mutable change their value.

The relation is reflexive and transitive, so that a sequence of operations keeps what each of them
keeps. A declaration and an assignment are such operations (`declare?_frame`, `assign_frame`), and
what happens between opening and closing a scope leaves the environment as if nothing had been
declared in it (`Frame.pop`).
-/

namespace Brisk

/-- How a binding may change: its mark stays, and so does its value unless it is mutable. -/
structure Binding.Frame (before after : Binding) : Prop where
  mutable_eq : after.mutable = before.mutable
  value_eq : before.mutable = false → after.value = before.value

/-- How a scope may change when the names in `fresh` may be declared in it: no binding is lost, and
only fresh names gain one. -/
structure Scope.Frame (fresh : List String) (before after : Scope) : Prop where
  kept : ∀ name b, before.lookup name = some b → ∃ b', after.lookup name = some b' ∧ b.Frame b'
  gained : ∀ name, before.lookup name = none → after.lookup name ≠ none → name ∈ fresh

/-- How the open scopes may change when the names in `fresh` may be declared in the innermost. -/
inductive Scope.StackFrame (fresh : List String) : List Scope → List Scope → Prop where
  | none : StackFrame fresh [] []
  | some {inner inner' : Scope} {outer outer' : List Scope} (head : inner.Frame fresh inner')
      (tail : List.Forall₂ (Scope.Frame []) outer outer') :
      StackFrame fresh (inner :: outer) (inner' :: outer')

/-- How an environment may change when the names in `fresh` may be declared in its innermost
scope. -/
def Environment.Frame (fresh : List String) (before after : Environment) : Prop :=
  Scope.StackFrame fresh before.scopes after.scopes

/-! ## Bindings -/

namespace Binding.Frame

/-- A binding that stays the same is in its frame. -/
theorem refl (b : Binding) : b.Frame b := ⟨rfl, fun _ => rfl⟩

/-- Frames of bindings can be put one behind the other: what is not mutable has kept its value
twice. -/
theorem trans {b₁ b₂ b₃ : Binding} (h₁ : b₁.Frame b₂) (h₂ : b₂.Frame b₃) : b₁.Frame b₃ := by
  refine ⟨h₂.mutable_eq.trans h₁.mutable_eq, fun h => ?_⟩
  have hb₂ : b₂.mutable = false := by rw [h₁.mutable_eq, h]
  rw [h₂.value_eq hb₂, h₁.value_eq h]

end Binding.Frame

/-! ## Scopes -/

namespace Scope

variable {fresh : List String}

/-- Setting a name changes what is looked up for that name only, and only if it is bound. -/
theorem lookup_set (scope : Scope) (name x : String) (v : Value) :
    (scope.set name v).lookup x =
      if x = name then (scope.lookup x).map ({ · with value := v }) else scope.lookup x := by
  induction scope with
  | nil => simp [set]
  | cons entry scope ih =>
    obtain ⟨y, b⟩ := entry
    rw [set]
    by_cases hy : y = name
    · -- The first binding is the one that is set.
      rw [if_pos hy]
      by_cases hx : x = y
      · simp [hx, hy]
      · have hxn : ¬ x = name := fun h => hx (h.trans hy.symm)
        rw [if_neg hxn, List.lookup_cons, List.lookup_cons, beq_eq_false_iff_ne.mpr hx]
    · -- The name is set further back.
      rw [if_neg hy, List.lookup_cons, List.lookup_cons, ih]
      by_cases hx : x = y
      · have hxn : ¬ x = name := fun h => hy (hx.symm.trans h)
        simp [hx, hy]
      · rw [beq_eq_false_iff_ne.mpr hx]

namespace Frame

/-- A scope that stays the same is in its frame. -/
theorem refl (scope : Scope) : scope.Frame fresh scope :=
  ⟨fun _ b h => ⟨b, h, .refl b⟩, fun _ h h' => absurd h h'⟩

/-- Frames of scopes can be put one behind the other. -/
theorem trans {s₁ s₂ s₃ : Scope} (h₁ : s₁.Frame fresh s₂) (h₂ : s₂.Frame fresh s₃) :
    s₁.Frame fresh s₃ := by
  constructor
  · intro name b hb
    obtain ⟨b₂, hb₂, hf₂⟩ := h₁.kept name b hb
    obtain ⟨b₃, hb₃, hf₃⟩ := h₂.kept name b₂ hb₂
    exact ⟨b₃, hb₃, hf₂.trans hf₃⟩
  · intro name hnone hsome
    -- A name that is gained on the way was gained in the first part or in the second.
    by_cases hs₂ : s₂.lookup name = none
    · exact h₂.gained name hs₂ hsome
    · exact h₁.gained name hnone hs₂

/-- More names may be fresh than are declared. -/
theorem mono {fresh' : List String} {s s' : Scope} (h : s.Frame fresh s') (hsub : fresh ⊆ fresh') :
    s.Frame fresh' s' :=
  ⟨h.kept, fun name hnone hsome => hsub (h.gained name hnone hsome)⟩

/-- When no name is fresh, a scope binds the same names as before. -/
theorem lookup_eq_none_iff {s s' : Scope} (h : s.Frame [] s') (name : String) :
    s'.lookup name = none ↔ s.lookup name = none := by
  constructor
  · intro hnone
    cases hs : s.lookup name with
    | none => rfl
    | some b =>
      obtain ⟨b', hb', -⟩ := h.kept name b hs
      rw [hnone] at hb'
      exact absurd hb' (by simp)
  · intro hnone
    by_contra hsome
    exact absurd (h.gained name hnone hsome) (by simp)

end Frame

/-- Declaring a name that a scope does not bind. -/
theorem frame_cons {scope : Scope} {name : String} (b : Binding) (h : scope.lookup name = none) :
    scope.Frame [name] ((name, b) :: scope) := by
  constructor
  · intro x bx hx
    have hne : x ≠ name := by
      rintro rfl
      rw [h] at hx
      exact absurd hx (by simp)
    refine ⟨bx, ?_, .refl bx⟩
    rw [List.lookup_cons, beq_eq_false_iff_ne.mpr hne]
    exact hx
  · intro x hnone hsome
    by_contra hx
    have hne : x ≠ name := fun h => hx (by simp [h])
    rw [List.lookup_cons, beq_eq_false_iff_ne.mpr hne] at hsome
    exact hsome hnone

/-- Giving a mutable binding another value. -/
theorem frame_set {scope : Scope} {name : String} {b : Binding} (v : Value)
    (hb : scope.lookup name = some b) (hm : b.mutable = true) :
    scope.Frame fresh (scope.set name v) := by
  constructor
  · intro x bx hx
    rw [lookup_set]
    by_cases hxn : x = name
    · -- The name itself: its binding is mutable, so the value may differ.
      subst hxn
      rw [hb] at hx
      cases hx
      refine ⟨{ b with value := v }, by simp [hb], ⟨rfl, fun h => ?_⟩⟩
      rw [hm] at h
      exact absurd h (by simp)
    · rw [if_neg hxn]
      exact ⟨bx, hx, .refl bx⟩
  · -- No name is bound anew.
    intro x hnone hsome
    rw [lookup_set, hnone] at hsome
    exact absurd hsome (by simp)

/-! ## Stacks of scopes -/

/-- Scopes in which nothing is declared keep what they bind. -/
theorem forall₂_frame_refl (scopes : List Scope) : List.Forall₂ (Frame []) scopes scopes :=
  List.forall₂_same.mpr fun scope _ => .refl scope

/-- Scopes that keep what they bind twice keep it. -/
theorem forall₂_frame_trans {s₁ s₂ s₃ : List Scope} (h₁ : List.Forall₂ (Frame []) s₁ s₂)
    (h₂ : List.Forall₂ (Frame []) s₂ s₃) : List.Forall₂ (Frame []) s₁ s₃ := by
  induction h₁ generalizing s₃ with
  | nil => exact h₂
  | cons h _ ih =>
    obtain _ | ⟨h', t'⟩ := h₂
    exact .cons (h.trans h') (ih t')

namespace StackFrame

/-- Scopes that stay the same are in their frame. -/
theorem refl (scopes : List Scope) : StackFrame fresh scopes scopes := by
  cases scopes with
  | nil => exact .none
  | cons inner outer => exact .some (.refl inner) (forall₂_frame_refl outer)

/-- Frames of all open scopes can be put one behind the other: the innermost scope is framed as one
that may get names, and those around it as scopes that may not. -/
theorem trans {s₁ s₂ s₃ : List Scope} (h₁ : StackFrame fresh s₁ s₂)
    (h₂ : StackFrame fresh s₂ s₃) : StackFrame fresh s₁ s₃ := by
  obtain _ | ⟨head₁, tail₁⟩ := h₁
  · exact h₂
  · obtain _ | ⟨head₂, tail₂⟩ := h₂
    exact .some (head₁.trans head₂) (forall₂_frame_trans tail₁ tail₂)

/-- More names may be allowed to be fresh in the innermost scope. -/
theorem mono {fresh' : List String} {s s' : List Scope} (h : StackFrame fresh s s')
    (hsub : fresh ⊆ fresh') : StackFrame fresh' s s' := by
  obtain _ | ⟨head, tail⟩ := h
  · exact .none
  · exact .some (head.mono hsub) tail

/-- When nothing is declared, all scopes keep what they bind. -/
theorem nil_iff_forall₂ {s s' : List Scope} :
    StackFrame [] s s' ↔ List.Forall₂ (Frame []) s s' := by
  constructor
  · rintro (_ | ⟨head, tail⟩)
    · exact .nil
    · exact .cons head tail
  · rintro (_ | ⟨head, tail⟩)
    · exact .none
    · exact .some head tail

end StackFrame

end Scope

/-! ## Environments -/

namespace Environment

variable {fresh : List String} {env env' : Environment}

instance : IsPreorder Environment (Frame fresh) where
  refl env := Scope.StackFrame.refl env.scopes
  trans _ _ _ h₁ h₂ := Scope.StackFrame.trans h₁ h₂

/-- More names may be allowed to be fresh. -/
theorem Frame.mono {fresh' : List String} (h : env.Frame fresh env') (hsub : fresh ⊆ fresh') :
    env.Frame fresh' env' :=
  Scope.StackFrame.mono h hsub

/-- Whatever is declared between opening and closing a scope is gone afterwards. -/
theorem Frame.pop (h : env.push.Frame fresh env') : env.Frame [] env'.pop := by
  obtain ⟨scopes'⟩ := env'
  unfold Frame push at h
  obtain _ | ⟨-, tail⟩ := h
  exact Scope.StackFrame.nil_iff_forall₂.mpr tail

/-- A declaration adds its name to the innermost scope. -/
theorem declare?_frame {name : String} {v : Value} {mutable : Bool}
    (h : env.declare? name v mutable = some env') : env.Frame [name] env' := by
  obtain ⟨scopes⟩ := env
  unfold declare? at h
  cases scopes with
  | nil => exact absurd h (by simp)
  | cons scope outer =>
    simp only at h
    cases hl : scope.lookup name with
    | some b => rw [hl] at h; exact absurd h (by simp)
    | none =>
      rw [hl] at h
      cases h
      exact .some (Scope.frame_cons _ hl) (Scope.forall₂_frame_refl outer)

/-- An assignment gives one mutable binding another value. -/
theorem assignIn_frame {name : String} {v : Value} {scopes scopes' : List Scope}
    (h : assignIn name v scopes = .ok scopes') :
    List.Forall₂ (Scope.Frame []) scopes scopes' := by
  induction scopes generalizing scopes' with
  | nil => exact absurd h (by simp [assignIn])
  | cons scope outer ih =>
    unfold assignIn at h
    cases hl : scope.lookup name with
    -- The first scope that binds the name is the one that changes, if it may.
    | some b =>
      simp only [hl] at h
      by_cases hm : b.mutable = true
      · rw [if_pos hm] at h
        cases h
        exact .cons (Scope.frame_set v hl hm) (Scope.forall₂_frame_refl outer)
      · rw [if_neg hm] at h
        exact absurd h (by simp)
    | none =>
      -- The name is not bound here, so this scope stays and a scope further out is looked for.
      simp only [hl] at h
      cases ho : assignIn name v outer with
      | error e => rw [ho] at h; exact absurd h (by simp [Except.map])
      | ok outer' =>
        rw [ho] at h
        cases h
        exact .cons (.refl scope) (ih ho)

/-- An assignment declares nothing, and keeps the values of what is not mutable. -/
theorem assign_frame {name : String} {v : Value} (h : env.assign name v = .ok env') :
    env.Frame [] env' := by
  unfold assign at h
  cases hs : assignIn name v env.scopes with
  | error e => rw [hs] at h; exact absurd h (by simp [Except.map])
  | ok scopes' =>
    rw [hs] at h
    cases h
    exact Scope.StackFrame.nil_iff_forall₂.mpr (assignIn_frame hs)

end Environment

end Brisk
