import Brisk.Environment
import Brisk.Proofs.Environment.Frame
import Mathlib.Data.List.Forall2
import Mathlib.Data.List.Infix

/-!
# Histories of environments

An environment keeps the scopes that are open now. Which bindings these are can also be read off the
history of all changes that have been made, from the first one on: a scope is open if it has been
opened and not closed since (`IsOpen`), it binds what was declared while it was the innermost one
(`Declared`), and an assignment was made to the innermost scope that bound the name at that time
(`Assigned`).

A history has its latest change in front, so what was made before a change is a suffix of it, and a
scope is known by the history in front of which it was opened. The invariant is that every scope of
the environment records what the history says of the scope that it stands for (`Records`), and it is
carried through the changes one by one (`records_opened`).
-/

namespace Brisk

namespace Environment

/-! ## Changes -/

/-- What can be done to an environment. -/
inductive Change where
  | push
  | pop
  | declare (name : String) (value : Value) (mutable : Bool)
  | assign (name : String) (value : Value)

/-- How a change is refused. -/
inductive Refusal where
  | declaration
  | assignment (cause : AssignError)
  deriving DecidableEq, Repr

/-- Makes a change, or refuses it. -/
def perform (env : Environment) : Change → Except Refusal Environment
  | .push => .ok env.push
  | .pop => .ok env.pop
  | .declare name value mutable =>
    match env.declare? name value mutable with
    | some env => .ok env
    | none => .error .declaration
  | .assign name value =>
    match env.assign name value with
    | .ok env => .ok env
    | .error cause => .error (.assignment cause)

/-- The environment behind a change, which stays as it is if the change is refused. -/
def change (env : Environment) (c : Change) : Environment :=
  match env.perform c with
  | .ok env => env
  | .error _ => env

/-- Changes that have been made to an environment without scopes, the latest one first. -/
abbrev History := List Change

/-- The environment behind a history. -/
def after : History → Environment
  | [] => empty
  | c :: past => (after past).change c

namespace Change

/-- Whether a change opens a scope. -/
def opens : Change → Bool
  | push => true
  | _ => false

/-- Whether a change closes a scope. -/
def closes : Change → Bool
  | pop => true
  | _ => false

end Change

/-! ## What a history says -/

/-- Whether the scope that was opened behind `scope` is still open: up to no point have the changes
since then closed more scopes than they have opened. -/
def IsOpen (h scope : History) : Prop :=
  ∃ since, h = since ++ .push :: scope ∧
    ∀ first, first <:+ since → first.countP Change.closes ≤ first.countP Change.opens

/-- Whether a scope is open and was opened behind all other open scopes. -/
def Innermost (h scope : History) : Prop :=
  IsOpen h scope ∧ ∀ other, IsOpen h other → other <:+ scope

/-- Whether the change `c` was made behind `past`, and was not refused. -/
def Made (h : History) (c : Change) (past : History) : Prop :=
  c :: past <:+ h ∧ ∃ env, (after past).perform c = .ok env

/-- Whether a name was declared behind `past`, while the scope was the innermost one. -/
def Declared (h scope : History) (name : String) (value : Value) (mutable : Bool)
    (past : History) : Prop :=
  Made h (.declare name value mutable) past ∧ Innermost past scope

/-- Whether an open scope binds a name. -/
def Binds (h scope : History) (name : String) : Prop :=
  IsOpen h scope ∧ ∃ value mutable past, Declared h scope name value mutable past

/-- Whether a scope is the innermost one of those that are open and bind a name. -/
def Visible (h scope : History) (name : String) : Prop :=
  Binds h scope name ∧ ∀ other, Binds h other name → other <:+ scope

/-- Whether a value was assigned to a name behind `past`, while the scope was the innermost one that
bound the name. -/
def Assigned (h scope : History) (name : String) (value : Value) (past : History) : Prop :=
  Made h (.assign name value) past ∧ Visible past scope name

/-- Whether the change behind `past` gave a value to a name in a scope: the declaration of the name,
or an assignment. -/
def Given (h scope : History) (name : String) (value : Value) (past : History) : Prop :=
  (∃ mutable, Declared h scope name value mutable past) ∨ Assigned h scope name value past

/-- Whether a value is the one that was given to a name in a scope last. -/
def Holds (h scope : History) (name : String) (value : Value) : Prop :=
  ∃ past, Given h scope name value past ∧
    ∀ other earlier, Given h scope name other earlier → earlier <:+ past

/-! ## Single changes -/

section Scopes

variable {name : String} {value : Value} {mutable : Bool} {env env' : Environment}
  {inner outer : List Scope} {scope : Scope} {b : Binding}

/-- A change that is made leads to the environment that it gives. -/
theorem change_of_ok {c : Change} (h : env.perform c = .ok env') : env.change c = env' := by
  unfold change
  rw [h]

/-- A change that is refused leaves the environment. -/
theorem change_of_error {c : Change} {refusal : Refusal} (h : env.perform c = .error refusal) :
    env.change c = env := by
  unfold change
  rw [h]

/-- A declaration is made in the innermost scope, and there has to be one that does not bind the
name. -/
theorem perform_declare_eq_ok_iff : env.perform (.declare name value mutable) = .ok env' ↔
    ∃ scope outer, env.scopes = scope :: outer ∧ scope.lookup name = none ∧
      env' = ⟨((name, ⟨value, mutable⟩) :: scope) :: outer⟩ := by
  obtain ⟨scopes⟩ := env
  cases scopes with
  | nil => simp [perform, declare?]
  | cons scope outer =>
    cases hscope : scope.lookup name with
    | some b =>
      simp only [perform, declare?, hscope]
      -- The name is bound in the innermost scope, so that neither side holds.
      constructor
      · intro h
        exact absurd h (by simp)
      · rintro ⟨scope', outer', heq, hnone, -⟩
        rw [← (List.cons.inj heq).1, hscope] at hnone
        exact absurd hnone (by simp)
    | none =>
      simp only [perform, declare?, hscope, Except.ok.injEq]
      -- The name is free there, and the new binding stands in front.
      constructor
      · rintro rfl
        exact ⟨scope, outer, rfl, hscope, rfl⟩
      · rintro ⟨scope', outer', heq, -, rfl⟩
        obtain ⟨rfl, rfl⟩ := List.cons.inj heq
        rfl

/-- Either no scope binds a name, or there is an innermost one that does. -/
theorem bound_or_unbound (name : String) (scopes : List Scope) :
    (∀ scope ∈ scopes, scope.lookup name = none) ∨
      ∃ inner scope outer b, scopes = inner ++ scope :: outer ∧
        (∀ scope ∈ inner, scope.lookup name = none) ∧ scope.lookup name = some b := by
  cases h : scopes.findSome? (·.lookup name) with
  | none => exact .inl (List.findSome?_eq_none_iff.mp h)
  | some b =>
    obtain ⟨inner, scope, outer, rfl, hscope, hinner⟩ := List.findSome?_eq_some_iff.mp h
    exact .inr ⟨inner, scope, outer, b, rfl, hinner, hscope⟩

/-- The innermost binding is the one of the first scope that binds the name. -/
theorem binding?_of_bound (henv : env.scopes = inner ++ scope :: outer)
    (hinner : ∀ s ∈ inner, s.lookup name = none) (hscope : scope.lookup name = some b) :
    env.binding? name = some b := by
  unfold binding?
  rw [henv]
  exact List.findSome?_eq_some_iff.mpr ⟨inner, scope, outer, rfl, hscope, hinner⟩

/-- A name that no scope binds is not bound. -/
theorem binding?_of_unbound (h : ∀ s ∈ env.scopes, s.lookup name = none) :
    env.binding? name = none :=
  List.findSome?_eq_none_iff.mpr h

/-- An assignment passes the scopes that do not bind the name. -/
theorem assignIn_append {rest : List Scope} (h : ∀ s ∈ inner, s.lookup name = none) :
    assignIn name value (inner ++ rest) = (assignIn name value rest).map (inner ++ ·) := by
  induction inner with
  | nil =>
    rw [List.nil_append]
    cases assignIn name value rest <;> rfl
  | cons s inner ih =>
    rw [List.forall_mem_cons] at h
    rw [List.cons_append, assignIn, h.1, ih h.2]
    cases assignIn name value rest <;> rfl

/-- An assignment to a name that no scope binds is refused. -/
theorem perform_assign_of_unbound (h : ∀ s ∈ env.scopes, s.lookup name = none) :
    env.perform (.assign name value) = .error (.assignment .unbound) := by
  have hassign : assignIn name value (env.scopes ++ []) = _ := assignIn_append h
  rw [List.append_nil] at hassign
  simp only [perform, assign, hassign, assignIn, Except.map]

/-- An assignment changes the value in the first scope that binds the name, if that is mutable
there. -/
theorem perform_assign_of_bound (value : Value) (henv : env.scopes = inner ++ scope :: outer)
    (hinner : ∀ s ∈ inner, s.lookup name = none) (hscope : scope.lookup name = some b) :
    env.perform (.assign name value) =
      if b.mutable then .ok ⟨inner ++ scope.set name value :: outer⟩
      else .error (.assignment .immutable) := by
  simp only [perform, assign, henv, assignIn_append hinner, assignIn, hscope]
  cases b.mutable <;> rfl

end Scopes

/-! ## Open scopes -/

/-- The scopes that are open, the innermost one first. -/
def opened : History → List History
  | [] => []
  | .push :: past => past :: opened past
  | .pop :: past => (opened past).tail
  | .declare .. :: past | .assign .. :: past => opened past

section Opened

variable {h scope other : History} {inner outer : List History}

/-- What has happened since a scope was opened that `n` open scopes lie in. -/
structure Balanced (since : History) (n : Nat) : Prop where
  opens : since.countP Change.opens = since.countP Change.closes + n
  upTo : ∀ first, first <:+ since → first.countP Change.closes ≤ first.countP Change.opens

/-- Nothing has happened, and no scope has been opened. -/
theorem Balanced.nil : Balanced [] 0 :=
  ⟨rfl, fun first hfirst => by rw [List.suffix_nil.mp hfirst]; exact Nat.le_refl _⟩

/-- Balance is kept by a change that leaves the count of the open scopes at `m`. -/
theorem Balanced.cons {since : History} {c : Change} {n m : Nat} (hsince : Balanced since n)
    (hc : c.opens.toNat + n = c.closes.toNat + m) : Balanced (c :: since) m := by
  have hopens : (c :: since).countP Change.opens = since.countP Change.opens + c.opens.toNat := by
    rw [List.countP_cons]
    cases c.opens <;> rfl
  have hcloses : (c :: since).countP Change.closes =
      since.countP Change.closes + c.closes.toNat := by
    rw [List.countP_cons]
    cases c.closes <;> rfl
  have heq := hsince.opens
  refine ⟨by omega, fun first hfirst => ?_⟩
  rcases List.suffix_cons_iff.mp hfirst with rfl | hfirst
  · omega
  · exact hsince.upTo first hfirst

/-- Every open scope was opened, and the scopes that lie in it have been opened since. -/
theorem balanced_of_opened (hopened : opened h = inner ++ scope :: outer) :
    ∃ since, h = since ++ .push :: scope ∧ Balanced since inner.length := by
  induction h generalizing inner with
  | nil => exact absurd hopened (by simp [opened])
  | cons c past ih =>
    -- What has happened since then has been going on, but for the scope that is opened just now.
    have hlater : ∀ {inner' : List History}, opened past = inner' ++ scope :: outer →
        c.opens.toNat + inner'.length = c.closes.toNat + inner.length →
        ∃ since, c :: past = since ++ .push :: scope ∧ Balanced since inner.length := by
      intro inner' hpast hc
      obtain ⟨since, rfl, hsince⟩ := ih hpast
      exact ⟨c :: since, rfl, hsince.cons hc⟩
    cases c with
    | push =>
      cases inner with
      -- The scope that has been opened just now is the one that is asked for.
      | nil =>
        obtain ⟨rfl, -⟩ := List.cons.inj hopened
        exact ⟨[], rfl, .nil⟩
      | cons first inner =>
        -- It is one of those further in, and balances the scope that is opened.
        refine hlater (List.cons.inj hopened).2 ?_
        show 1 + inner.length = 0 + (inner.length + 1)
        omega
    | pop =>
      cases hpast : opened past with
      | nil => exact absurd hopened (by simp [opened, hpast])
      | cons first rest =>
        -- The scope that is closed stood in front of the ones further in.
        rw [opened, hpast, List.tail_cons] at hopened
        rw [hopened, ← List.cons_append] at hpast
        refine hlater hpast ?_
        show 0 + (inner.length + 1) = 1 + inner.length
        omega
    | declare | assign => exact hlater hopened rfl

/-- The list of the open scopes holds those that are open, and no others. -/
theorem mem_opened_iff : scope ∈ opened h ↔ IsOpen h scope := by
  constructor
  · intro hmem
    obtain ⟨inner, outer, hopened⟩ := List.append_of_mem hmem
    obtain ⟨since, hsince, hbalanced⟩ := balanced_of_opened hopened
    exact ⟨since, hsince, hbalanced.upTo⟩
  · rintro ⟨since, rfl, hsince⟩
    -- The induction is on what has happened since, which at no point closed more than it opened.
    induction since with
    | nil => exact List.mem_cons_self
    | cons c since ih =>
      have hpast := ih fun first hfirst => hsince first (hfirst.trans (List.suffix_cons c since))
      cases c with
      | push => exact List.mem_cons_of_mem _ hpast
      | declare | assign => exact hpast
      | pop =>
        -- The scope that is closed just now is another one, which has been opened since.
        obtain ⟨inner, outer, hopened⟩ := List.append_of_mem hpast
        obtain ⟨since', hsince', hbalanced⟩ := balanced_of_opened hopened
        obtain rfl := List.append_cancel_right hsince'
        have hwhole := hsince (.pop :: since) (List.suffix_refl _)
        have hopens := hbalanced.opens
        rw [List.countP_cons_of_pos rfl, List.countP_cons_of_neg (by decide)] at hwhole
        cases inner with
        | nil =>
          rw [List.length_nil] at hopens
          omega
        | cons first inner =>
          show scope ∈ (opened (since ++ .push :: scope)).tail
          rw [hopened, List.cons_append, List.tail_cons]
          exact List.mem_append_right _ List.mem_cons_self

/-- Only a scope that is opened just now has not been open before. -/
theorem eq_or_mem_of_mem_opened {c : Change} (hmem : scope ∈ opened (c :: h)) :
    scope = h ∨ scope ∈ opened h := by
  cases c with
  | push => exact List.mem_cons.mp hmem
  | pop => exact .inr (List.mem_of_mem_tail hmem)
  | declare | assign => exact .inr hmem

/-- An open scope has been opened in the course of the history. -/
theorem IsOpen.suffix (hopen : IsOpen h scope) : .push :: scope <:+ h := by
  obtain ⟨since, rfl, -⟩ := hopen
  exact List.suffix_append _ _

/-- What had happened before an open scope was opened is shorter than the history. -/
theorem IsOpen.length_lt (hopen : IsOpen h scope) : scope.length < h.length :=
  hopen.suffix.length_le

/-- The open scopes were opened one behind another. -/
theorem pairwise_opened (h : History) :
    (opened h).Pairwise fun scope other => other.length < scope.length := by
  induction h with
  | nil => exact .nil
  | cons c past ih =>
    cases c with
    | push => exact .cons (fun _ hmem => (mem_opened_iff.mp hmem).length_lt) ih
    | pop => exact ih.tail
    | declare | assign => exact ih

/-- Of two scopes that have been open, the one that was opened first is a part of the other one's
history. -/
theorem suffix_of_length_le (hscope : IsOpen h scope) (hother : IsOpen h other)
    (hle : other.length ≤ scope.length) : other <:+ scope :=
  List.suffix_of_suffix_length_le ((List.suffix_cons _ _).trans hother.suffix)
    ((List.suffix_cons _ _).trans hscope.suffix) hle

/-- The innermost scope is the first one of those that are open. -/
theorem innermost_iff : Innermost h scope ↔ ∃ outer, opened h = scope :: outer := by
  have hpairwise := pairwise_opened h
  constructor
  · rintro ⟨hopen, hall⟩
    -- All other open scopes have been opened earlier, so that none is in front of this one.
    cases hopened : opened h with
    | nil => exact absurd (mem_opened_iff.mpr hopen) (by simp [hopened])
    | cons first outer =>
      rw [hopened] at hpairwise
      have hfirst := hall first (mem_opened_iff.mp (by simp [hopened]))
      rcases List.mem_cons.mp (hopened ▸ mem_opened_iff.mpr hopen) with rfl | hmem
      · exact ⟨outer, rfl⟩
      · have hlt := List.rel_of_pairwise_cons hpairwise hmem
        exact absurd hfirst.length_le (by omega)
  · rintro ⟨outer, hopened⟩
    -- The scope in front has been opened last, since the open scopes stand in their order.
    rw [hopened] at hpairwise
    have hopen : IsOpen h scope := mem_opened_iff.mp (by simp [hopened])
    refine ⟨hopen, fun other hother => suffix_of_length_le hopen hother ?_⟩
    rcases List.mem_cons.mp (hopened ▸ mem_opened_iff.mpr hother) with rfl | hmem
    · exact Nat.le_refl _
    · exact Nat.le_of_lt (List.rel_of_pairwise_cons hpairwise hmem)

/-- A scope that lies in another one, or around it, is not the same. -/
theorem ne_of_opened (hopened : opened h = inner ++ scope :: outer)
    (hother : other ∈ inner ∨ other ∈ outer) : other ≠ scope := by
  rintro rfl
  have hpairwise := pairwise_opened h
  rw [hopened, List.pairwise_append, List.pairwise_cons] at hpairwise
  obtain ⟨-, ⟨houter, -⟩, hinner⟩ := hpairwise
  rcases hother with hmem | hmem
  · exact absurd (hinner _ hmem _ List.mem_cons_self) (Nat.lt_irrefl _)
  · exact absurd (houter _ hmem) (Nat.lt_irrefl _)

end Opened

/-! ## Values that were given -/

section Given

variable {h scope past : History} {name : String} {value : Value} {mutable : Bool} {c c' : Change}

/-- A change that was made is the latest one, or was made before. -/
theorem made_cons_iff : Made (c' :: h) c past ↔
    (c = c' ∧ past = h ∧ ∃ env, (after h).perform c' = .ok env) ∨ Made h c past := by
  unfold Made
  rw [List.suffix_cons_iff, List.cons.injEq, or_and_right, and_assoc]
  refine or_congr_left ⟨?_, ?_⟩
  · rintro ⟨rfl, rfl, hok⟩
    exact ⟨rfl, rfl, hok⟩
  · rintro ⟨rfl, rfl, hok⟩
    exact ⟨rfl, rfl, hok⟩

/-- What had happened before a change is shorter than the history with it. -/
theorem Made.length_lt (hmade : Made h c past) : past.length < h.length :=
  hmade.1.length_le

/-- What was made behind a given history is one change. -/
theorem Made.unique (hmade : Made h c past) (hmade' : Made h c' past) : c = c' := by
  have hsuffix := List.suffix_of_suffix_length_le hmade.1 hmade'.1 (Nat.le_refl _)
  exact (List.cons.inj (hsuffix.eq_of_length rfl)).1

/-- A change that was made is made behind something that the history without its latest change
starts with. -/
theorem Made.suffix_of_cons (hmade : Made (c' :: h) c past) : past <:+ h :=
  List.suffix_of_suffix_length_le ((List.suffix_cons _ _).trans hmade.1) (List.suffix_cons _ _)
    (Nat.le_of_lt_succ hmade.length_lt)

/-- The value that was given last is one. -/
theorem Holds.unique {value' : Value} (hholds : Holds h scope name value)
    (hholds' : Holds h scope name value') : value = value' := by
  obtain ⟨past, hgiven, hlast⟩ := hholds
  obtain ⟨past', hgiven', hlast'⟩ := hholds'
  obtain rfl : past = past' :=
    (hlast' _ _ hgiven).eq_of_length_le (hlast _ _ hgiven').length_le
  rcases hgiven with ⟨_, hmade, -⟩ | ⟨hmade, -⟩ <;> rcases hgiven' with ⟨_, hmade', -⟩ | ⟨hmade', -⟩
  · exact (Change.declare.inj (hmade.unique hmade')).2.1
  · exact absurd (hmade.unique hmade') (by simp)
  · exact absurd (hmade.unique hmade') (by simp)
  · exact (Change.assign.inj (hmade.unique hmade')).2

/-- Two scopes that are the innermost ones to bind a name are the same. -/
theorem Visible.unique {scope' : History} (hvisible : Visible h scope name)
    (hvisible' : Visible h scope' name) : scope = scope' :=
  (hvisible'.2 _ hvisible.1).eq_of_length_le (hvisible.2 _ hvisible'.1).length_le

/-! ## What scopes record -/

/-- Whether a change is made to a name in a scope, and not refused. -/
inductive Reaches (h : History) (c : Change) (scope : History) (name : String) : Prop where
  | declare (value : Value) (mutable : Bool) (hc : c = .declare name value mutable)
      (hok : ∃ env, (after h).perform c = .ok env) (hscope : Innermost h scope)
  | assign (value : Value) (hc : c = .assign name value)
      (hok : ∃ env, (after h).perform c = .ok env) (hscope : Visible h scope name)

/-- Whether a scope of the environment binds a name as the history says of the scope. -/
structure RecordsAt (h : History) (bindings : Scope) (scope : History) (name : String) : Prop where
  bound : ∀ b, bindings.lookup name = some b →
    (∃ value past, Declared h scope name value b.mutable past) ∧ Holds h scope name b.value
  unbound : bindings.lookup name = none → ∀ value mutable past,
    ¬Declared h scope name value mutable past

/-- Whether a scope of the environment binds all names as the history says of the scope. -/
def Records (h : History) (bindings : Scope) (scope : History) : Prop :=
  ∀ name, RecordsAt h bindings scope name

/-- A declaration that was made stays one. -/
theorem Declared.mono (hdeclared : Declared h scope name value mutable past) :
    Declared (c :: h) scope name value mutable past :=
  ⟨made_cons_iff.mpr (.inr hdeclared.1), hdeclared.2⟩

/-- A value that was given to a name stays one that was given. -/
theorem Given.mono (hgiven : Given h scope name value past) :
    Given (c :: h) scope name value past := by
  rcases hgiven with ⟨mutable, hdeclared⟩ | ⟨hmade, hvisible⟩
  · exact .inl ⟨mutable, hdeclared.mono⟩
  · exact .inr ⟨made_cons_iff.mpr (.inr hmade), hvisible⟩

/-- What is declared by a change that does not reach the scope was declared before. -/
theorem Declared.of_cons (hreaches : ¬Reaches h c scope name)
    (hdeclared : Declared (c :: h) scope name value mutable past) :
    Declared h scope name value mutable past := by
  obtain ⟨hmade, hscope⟩ := hdeclared
  rcases made_cons_iff.mp hmade with ⟨rfl, rfl, hok⟩ | hmade
  · exact absurd (.declare value mutable rfl hok hscope) hreaches
  · exact ⟨hmade, hscope⟩

/-- The latest change gives no value to a name in a scope unless it reaches the name there. -/
theorem Given.of_cons (hreaches : ¬Reaches h c scope name)
    (hgiven : Given (c :: h) scope name value past) : Given h scope name value past := by
  rcases hgiven with ⟨mutable, hdeclared⟩ | ⟨hmade, hscope⟩
  · exact .inl ⟨mutable, hdeclared.of_cons hreaches⟩
  · rcases made_cons_iff.mp hmade with ⟨rfl, rfl, hok⟩ | hmade
    · exact absurd (.assign value rfl hok hscope) hreaches
    · exact .inr ⟨hmade, hscope⟩

/-- What a change gives is given last. -/
theorem Given.holds (hgiven : Given (c :: h) scope name value h) :
    Holds (c :: h) scope name value := by
  refine ⟨h, hgiven, fun other earlier hearlier => ?_⟩
  rcases hearlier with ⟨_, hmade, -⟩ | ⟨hmade, -⟩
  · exact hmade.suffix_of_cons
  · exact hmade.suffix_of_cons

namespace RecordsAt

variable {bindings bindings' : Scope}

/-- What is not reached stays recorded. -/
theorem keep (hrecords : RecordsAt h bindings scope name) (hreaches : ¬Reaches h c scope name)
    (hlookup : bindings'.lookup name = bindings.lookup name) :
    RecordsAt (c :: h) bindings' scope name := by
  constructor
  · intro b hb
    obtain ⟨⟨value, past, hdeclared⟩, past', hgiven, hlast⟩ := hrecords.bound b (hlookup ▸ hb)
    exact ⟨⟨value, past, hdeclared.mono⟩, past', hgiven.mono,
      fun other earlier hearlier => hlast other earlier (hearlier.of_cons hreaches)⟩
  · intro hnone value mutable past hdeclared
    exact hrecords.unbound (hlookup ▸ hnone) value mutable past (hdeclared.of_cons hreaches)

/-- A declaration is recorded in the innermost scope. -/
theorem declare (hscope : Innermost h scope)
    (hok : ∃ env, (after h).perform (.declare name value mutable) = .ok env) :
    RecordsAt (.declare name value mutable :: h) ((name, ⟨value, mutable⟩) :: bindings) scope
      name := by
  have hlookup : ((name, (⟨value, mutable⟩ : Binding)) :: bindings).lookup name =
      some ⟨value, mutable⟩ := List.lookup_cons_self
  have hdeclared : Declared (.declare name value mutable :: h) scope name value mutable h :=
    ⟨made_cons_iff.mpr (.inl ⟨rfl, rfl, hok⟩), hscope⟩
  constructor
  · intro b hb
    obtain rfl : ⟨value, mutable⟩ = b := Option.some.inj (hlookup.symm.trans hb)
    exact ⟨⟨value, h, hdeclared⟩, Given.holds (.inl ⟨mutable, hdeclared⟩)⟩
  · intro hnone
    exact absurd (hlookup.symm.trans hnone) (by simp)

/-- An assignment is recorded in the innermost scope that binds the name. -/
theorem assign {b : Binding} (hrecords : RecordsAt h bindings scope name)
    (hb : bindings.lookup name = some b) (hscope : Visible h scope name)
    (hok : ∃ env, (after h).perform (.assign name value) = .ok env) :
    RecordsAt (.assign name value :: h) (bindings.set name value) scope name := by
  have hlookup : (bindings.set name value).lookup name = some { b with value } := by
    rw [Scope.lookup_set, if_pos rfl, hb]
    rfl
  constructor
  · intro b' hb'
    obtain rfl : { b with value } = b' := Option.some.inj (hlookup.symm.trans hb')
    obtain ⟨⟨first, past, hdeclared⟩, -⟩ := hrecords.bound b hb
    exact ⟨⟨first, past, hdeclared.mono⟩,
      Given.holds (.inr ⟨made_cons_iff.mpr (.inl ⟨rfl, rfl, hok⟩), hscope⟩)⟩
  · intro hnone
    exact absurd (hlookup.symm.trans hnone) (by simp)

end RecordsAt

end Given

/-! ## All open scopes -/

section Scopes

variable {h scope : History} {name : String} {c : Change} {inner outer : List Scope}
  {bindings : Scope} {ids : List History}

/-- Scopes in front of and behind a scope stand for scopes in front of and behind what that stands
for. -/
theorem exists_of_records_append
    (hrecords : List.Forall₂ (Records h) (inner ++ bindings :: outer) ids) :
    ∃ inner' scope outer', ids = inner' ++ scope :: outer' ∧
      List.Forall₂ (Records h) inner inner' ∧ Records h bindings scope ∧
      List.Forall₂ (Records h) outer outer' := by
  induction inner generalizing ids with
  | nil =>
    obtain _ | ⟨hhead, htail⟩ := hrecords
    exact ⟨[], _, _, rfl, .nil, hhead, htail⟩
  | cons first inner ih =>
    obtain _ | ⟨hhead, htail⟩ := hrecords
    obtain ⟨inner', scope, outer', rfl, hinner, hscope, houter⟩ := ih htail
    exact ⟨_ :: inner', scope, outer', rfl, .cons hhead hinner, hscope, houter⟩

/-- Scopes without a binding of a name stand for scopes that do not bind it. -/
theorem not_binds_of_records {scopes : List Scope}
    (hrecords : List.Forall₂ (Records h) scopes ids)
    (hscopes : ∀ s ∈ scopes, s.lookup name = none) : ∀ scope ∈ ids, ¬Binds h scope name := by
  induction hrecords with
  | nil => simp
  | cons hhead _ ih =>
    rw [List.forall_mem_cons] at hscopes ⊢
    refine ⟨?_, ih hscopes.2⟩
    rintro ⟨-, value, mutable, past, hdeclared⟩
    exact (hhead name).unbound hscopes.1 value mutable past hdeclared

/-- The first scope with a binding of a name stands for the innermost one that binds it. -/
theorem visible_of_records {inner' outer' : List History} {b : Binding}
    (hopened : opened h = inner' ++ scope :: outer')
    (hrecords : List.Forall₂ (Records h) inner inner') (hscope : Records h bindings scope)
    (hinner : ∀ s ∈ inner, s.lookup name = none) (hb : bindings.lookup name = some b) :
    Visible h scope name := by
  have hopen : IsOpen h scope :=
    mem_opened_iff.mp (hopened ▸ List.mem_append_right _ List.mem_cons_self)
  obtain ⟨⟨value, past, hdeclared⟩, -⟩ := (hscope name).bound b hb
  refine ⟨⟨hopen, value, b.mutable, past, hdeclared⟩, fun other hother => ?_⟩
  have hmem := mem_opened_iff.mpr hother.1
  have hpairwise := pairwise_opened h
  rw [hopened] at hmem hpairwise
  rcases List.mem_append.mp hmem with hmem | hmem
  · exact absurd hother (not_binds_of_records hrecords hinner other hmem)
  rcases List.mem_cons.mp hmem with rfl | hmem
  · exact List.suffix_refl _
  · have hlt := List.rel_of_pairwise_cons (List.pairwise_append.mp hpairwise).2.1 hmem
    exact suffix_of_length_le hopen hother.1 (Nat.le_of_lt hlt)

/-- What no scope is reached by stays recorded. -/
theorem records_keep {scopes : List Scope} (hrecords : List.Forall₂ (Records h) scopes ids)
    (hreaches : ∀ scope ∈ ids, ∀ name, ¬Reaches h c scope name) :
    List.Forall₂ (Records (c :: h)) scopes ids := by
  induction hrecords with
  | nil => exact .nil
  | cons hhead _ ih =>
    rw [List.forall_mem_cons] at hreaches
    exact .cons (fun name => (hhead name).keep (hreaches.1 name) rfl) (ih hreaches.2)

/-- A declaration that is not refused is recorded. -/
theorem records_declare {value : Value} {mutable : Bool} {env : Environment}
    (hrecords : List.Forall₂ (Records h) (after h).scopes (opened h))
    (hok : (after h).perform (.declare name value mutable) = .ok env) :
    List.Forall₂ (Records (.declare name value mutable :: h)) env.scopes (opened h) := by
  obtain ⟨bindings, outer, hscopes, -, rfl⟩ := perform_declare_eq_ok_iff.mp hok
  rw [hscopes] at hrecords
  -- The scope that the declaration reaches is the one in front.
  generalize hopened : opened h = ids at hrecords
  obtain _ | ⟨hhead, htail⟩ := hrecords
  rename_i scope ids
  have hscope : Innermost h scope := innermost_iff.mpr ⟨ids, hopened⟩
  have hsplit : opened h = [] ++ scope :: ids := hopened
  refine .cons (fun x => ?_) (records_keep htail fun other hother x hreaches => ?_)
  · by_cases hx : x = name
    · subst hx
      -- The name that is declared: the declaration is what the scope records of it.
      exact .declare hscope ⟨_, hok⟩
    · refine (hhead x).keep ?_ ?_
      · -- Another name, of which nothing has changed.
        rintro (⟨_, _, hc, -, -⟩ | ⟨_, hc, -, -⟩)
        · exact hx (Change.declare.inj hc).1.symm
        · exact absurd hc (by simp)
      · rw [List.lookup_cons, beq_eq_false_iff_ne.mpr hx]
  · -- The scopes around the innermost one are other ones.
    obtain ⟨_, _, -, -, hother'⟩ | ⟨_, hc, -, -⟩ := hreaches
    · obtain ⟨rest, hrest⟩ := innermost_iff.mp hother'
      rw [hopened] at hrest
      exact ne_of_opened hsplit (.inr hother) (List.cons.inj hrest).1.symm
    · exact absurd hc (by simp)

/-- An assignment that is not refused is recorded. -/
theorem records_assign {value : Value} {env : Environment}
    (hrecords : List.Forall₂ (Records h) (after h).scopes (opened h))
    (hok : (after h).perform (.assign name value) = .ok env) :
    List.Forall₂ (Records (.assign name value :: h)) env.scopes (opened h) := by
  rcases bound_or_unbound name (after h).scopes with
    hnone | ⟨inner, bindings, outer, b, hscopes, hinner, hb⟩
  · -- A name that is not bound cannot be assigned to.
    rw [perform_assign_of_unbound hnone] at hok
    exact absurd hok (by simp)
  have hperform := perform_assign_of_bound value hscopes hinner hb
  -- The name is bound, and the first scope that binds it is the one that changes.
  rw [hok] at hperform
  obtain rfl : env = ⟨inner ++ bindings.set name value :: outer⟩ := by
    split at hperform
    · exact Except.ok.inj hperform
    · exact absurd hperform (by simp)
  rw [hscopes] at hrecords
  obtain ⟨inner', scope, outer', hopened, hrecords, hhead, htail⟩ :=
    exists_of_records_append hrecords
  have hvisible := visible_of_records hopened hrecords hhead hinner hb
  -- The scope that the assignment reaches is the only one.
  have hothers : ∀ other, other ∈ inner' ∨ other ∈ outer' → ∀ x,
      ¬Reaches h (.assign name value) other x := by
    rintro other hother x (⟨_, _, hc, -, -⟩ | ⟨_, hc, -, hother'⟩)
    · exact absurd hc (by simp)
    · rw [← (Change.assign.inj hc).1] at hother'
      exact ne_of_opened hopened hother (hother'.unique hvisible)
  rw [hopened]
  refine List.rel_append (records_keep hrecords fun other hmem => hothers other (.inl hmem))
    (.cons (fun x => ?_) (records_keep htail fun other hmem => hothers other (.inr hmem)))
  by_cases hx : x = name
  · -- The assigned name in that scope, and the others in it.
    subst hx
    exact (hhead x).assign hb hvisible ⟨_, hok⟩
  · refine (hhead x).keep ?_ ?_
    · rintro (⟨_, _, hc, -, -⟩ | ⟨_, hc, -, -⟩)
      · exact absurd hc (by simp)
      · exact hx (Change.assign.inj hc).1.symm
    · rw [Scope.lookup_set, if_neg hx]

/-- The scopes of the environment record what the history says of the open scopes. -/
theorem records_opened (h : History) :
    List.Forall₂ (Records h) (after h).scopes (opened h) := by
  induction h with
  | nil => exact .nil
  | cons c past ih =>
    -- A change that is refused reaches nothing.
    have hrefused : ∀ refusal, (after past).perform c = .error refusal →
        List.Forall₂ (Records (c :: past)) ((after past).change c).scopes (opened past) := by
      intro refusal herror
      rw [change_of_error herror]
      refine records_keep ih fun scope _ name hreaches => ?_
      obtain ⟨_, _, -, ⟨env, hok⟩, -⟩ | ⟨_, -, ⟨env, hok⟩, -⟩ := hreaches <;>
        exact absurd (herror.symm.trans hok) (by simp)
    -- Opening and closing a scope reaches no binding.
    have hpushPop : c.opens = true ∨ c.closes = true → ∀ scope name,
        ¬Reaches past c scope name := by
      rintro hc scope name (⟨_, _, rfl, -, -⟩ | ⟨_, rfl, -, -⟩) <;>
        exact absurd hc (by simp [Change.opens, Change.closes])
    cases c with
    | push =>
      refine .cons (fun name => ⟨fun b hb => absurd hb (by simp), ?_⟩)
        (records_keep ih fun scope _ => hpushPop (.inl rfl) scope)
      -- Nothing was declared in a scope before it was opened.
      rintro - value mutable earlier ⟨hmade, hscope⟩
      have hlt := hscope.1.length_lt
      have hle := hmade.length_lt
      rw [List.length_cons] at hle
      omega
    | pop =>
      have hkeep := records_keep ih fun scope _ => hpushPop (.inr rfl) scope
      -- The innermost scope goes, on both sides.
      show List.Forall₂ _ (after past).scopes.tail (opened past).tail
      revert hkeep
      generalize (after past).scopes = scopes
      generalize opened past = ids
      rintro (_ | ⟨-, htail⟩)
      · exact .nil
      · exact htail
    | declare name value mutable =>
      cases hperform : (after past).perform (.declare name value mutable) with
      | error refusal => exact hrefused refusal hperform
      | ok env =>
        show List.Forall₂ _ ((after past).change _).scopes (opened past)
        rw [change_of_ok hperform]
        exact records_declare ih hperform
    | assign name value =>
      cases hperform : (after past).perform (.assign name value) with
      | error refusal => exact hrefused refusal hperform
      | ok env =>
        show List.Forall₂ _ ((after past).change _).scopes (opened past)
        rw [change_of_ok hperform]
        exact records_assign ih hperform

end Scopes

end Environment

end Brisk
