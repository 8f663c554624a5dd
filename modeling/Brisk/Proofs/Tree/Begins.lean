import Brisk.Proofs.Token.Spelling
import Brisk.Proofs.Tree.Tokens
import Mathlib.Data.Set.Finite.List

/-!
# Tokens with which the writing of a tree begins

`Slot.Begins slots ts` says that tokens are a prefix of what fills slots, and that the rest of it is
made of tokens that can be spelt. So whatever stands for `ts` in a source, a source can go on from
there to the end of the tree.

Slots begin part by part: the parts in front are filled, one part is begun, and for those behind it
is enough that they can be filled with such tokens at all. Names for that are made of underscores,
so that there is always one that has not been used yet (`Token.exists_fresh`).
-/

namespace Brisk

namespace Token

/-- Every symbol can be written. -/
@[simp]
theorem spellable_symbol (s : Symbol) : Spellable (.symbol s) := ⟨_, .symbol s⟩

/-- Every keyword can be written. -/
@[simp]
theorem spellable_keyword (k : Keyword) : Spellable (.keyword k) := ⟨_, .keyword k⟩

/-- A name of underscores, one more than given. -/
def underscores (n : Nat) : String := String.ofList ('_' :: List.replicate n '_')

/-- Any number of underscores is a name. -/
@[simp]
theorem spellable_underscores (n : Nat) : Spellable (.identifier (underscores n)) := by
  refine ⟨_, .identifier rfl ?_ ?_⟩
  · -- An underscore goes on with a word.
    intro d hd
    rw [List.eq_of_mem_replicate hd]
    rfl
  · -- No keyword starts with an underscore.
    intro k hk
    have hkeywords : ∀ k : Keyword, k.text.toList.head? ≠ some '_' := by
      intro k
      cases k with
      | truth b => cases b <;> decide
      | type t => cases t <;> decide
      | letKey | mutKey | fnKey | whileKey | ifKey | elseKey | returnKey => decide
    apply hkeywords k
    rw [hk, String.toList_ofList]
    rfl

/-- Different numbers of underscores are different names. -/
theorem underscores_injective : Function.Injective underscores := by
  intro m n h
  have hlength := congrArg String.length h
  unfold underscores at hlength
  rw [String.length_ofList, String.length_ofList, List.length_cons, List.length_cons,
    List.length_replicate, List.length_replicate] at hlength
  omega

/-- There is always a name that is not among given ones. -/
theorem exists_fresh (seen : List String) : ∃ n, underscores n ∉ seen := by
  by_contra hall
  push Not at hall
  exact Set.infinite_of_injective_forall_mem underscores_injective hall seen.finite_toSet

end Token

namespace Slot

variable {slots slots' : List Slot} {t : Token} {ts ts' : List Token}

/-- Tokens are a prefix of what fills slots, and the rest of it can be spelt. -/
def Begins (slots : List Slot) (ts : List Token) : Prop :=
  ∃ us, Filled slots (ts ++ us) ∧ ∀ u ∈ us, u.Spellable

/-- Slots that are filled have begun. -/
theorem Filled.begins (h : Filled slots ts) : Begins slots ts :=
  ⟨[], by rwa [List.append_nil], by simp⟩

/-- No tokens begin no slots. -/
@[simp]
theorem begins_nil : Begins [] [] := Filled.nil.begins

/-- Slots whose tokens can all be spelt begin with nothing. -/
@[simp]
theorem begins_token_nil_iff : Begins (.token t :: slots) [] ↔ t.Spellable ∧ Begins slots [] := by
  -- The tokens that complete the slots start with the token itself.
  constructor
  · rintro ⟨us, hfilled, hus⟩
    obtain _ | @⟨_, _, us, hfilled⟩ := hfilled
    exact ⟨hus t List.mem_cons_self, us, hfilled, fun u hu => hus u (List.mem_cons_of_mem t hu)⟩
  · rintro ⟨ht, us, hfilled, hus⟩
    refine ⟨t :: us, .token hfilled, ?_⟩
    intro u hu
    rcases List.mem_cons.mp hu with rfl | hu
    · exact ht
    · exact hus u hu

/-- A token in its place begins slots if what is behind it does. -/
theorem Begins.token (h : Begins slots ts) : Begins (.token t :: slots) (t :: ts) := by
  obtain ⟨us, hfilled, hus⟩ := h
  exact ⟨us, .token hfilled, hus⟩

/-- The slot of a token is begun by that token only. -/
@[simp]
theorem begins_token_cons_iff {u : Token} :
    Begins (.token t :: slots) (u :: ts) ↔ t = u ∧ Begins slots ts := by
  constructor
  · rintro ⟨us, hfilled, hus⟩
    cases hfilled with
    | token hfilled => exact ⟨rfl, us, hfilled, hus⟩
  · rintro ⟨rfl, h⟩
    exact h.token

/-- A dollar sign in its slot begins slots if what is behind it does. -/
theorem Begins.dollar (h : Begins slots ts) :
    Begins (.dollar :: slots) (.symbol .dollar :: ts) := by
  obtain ⟨us, hfilled, hus⟩ := h
  exact ⟨us, .dollar hfilled, hus⟩

/-- Behind slots that are filled, further slots begin. -/
theorem Filled.append_begins (h : Filled slots ts) (h' : Begins slots' ts') :
    Begins (slots ++ slots') (ts ++ ts') := by
  obtain ⟨us, hfilled, hus⟩ := h'
  refine ⟨us, ?_, hus⟩
  rw [List.append_assoc]
  exact h.append hfilled

/-- What begins slots begins them with further slots behind them. -/
theorem Begins.append (h : Begins slots ts) (h' : Begins slots' []) :
    Begins (slots ++ slots') ts := by
  obtain ⟨us, hfilled, hus⟩ := h
  obtain ⟨us', hfilled', hus'⟩ := h'
  refine ⟨us ++ us', ?_, ?_⟩
  · rw [← List.append_assoc]
    exact hfilled.append hfilled'
  · intro u hu
    rcases List.mem_append.mp hu with hu | hu
    · exact hus u hu
    · exact hus' u hu

end Slot

end Brisk
