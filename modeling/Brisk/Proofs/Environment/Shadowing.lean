import Brisk.Proofs.Environment.History

/-!
# Shadowing

What an environment answers is what block structure says of the history of its changes
(`Environment.scopes_shadow`): a name stands for the value that was given last to its innermost open
binding, and an inner binding hides the outer ones until its scope is closed.

That a change has no effect on something is said by comparing two histories, one with the change and
one without it. While they go on alike, their environments agree on all other names (`Agree`). If
the change was made to a name in a scope, they are the same but for that name in that scope, as long
as the scope is open (`Differ`), and the same in all respects when it is closed. An assignment that
the binding in that scope keeps from the outer ones is left out together with the change
(`Without`).
-/

namespace Brisk

namespace Environment

/-- The name that a change is about, if it is about one. -/
def Change.name? : Change → Option String
  | push | pop => none
  | declare name _ _ | assign name _ => some name

/-- What a change is answered. -/
def answer (env : Environment) (c : Change) : Except Refusal Unit :=
  (env.perform c).map fun _ => ()

/-- What is left of changes that were made behind `h`, if the assignments to a name are left out
that were tried while a scope was the innermost one that bound the name. -/
inductive Without (h scope : History) (name : String) : History → History → Prop where
  | nil : Without h scope name [] []
  | keep {c : Change} {later rest : History}
      (hc : ∀ value, c = .assign name value → ¬Visible (later ++ h) scope name)
      (hrest : Without h scope name later rest) : Without h scope name (c :: later) (c :: rest)
  | leaveOut {value : Value} {later rest : History} (hvisible : Visible (later ++ h) scope name)
      (hrest : Without h scope name later rest) :
      Without h scope name (.assign name value :: later) rest

variable {h scope later rest : History} {name x : String} {value v : Value} {mutable m : Bool}
  {env env' : Environment} {c : Change} {inner outer : List Scope} {bindings bindings' : Scope}
  {b : Binding}

/-- Whatever happens later, the assignments that have found the binding of a scope can be taken
out. -/
theorem exists_without (h scope : History) (name : String) (later : History) :
    ∃ rest, Without h scope name later rest := by
  induction later with
  | nil => exact ⟨[], .nil⟩
  | cons c later ih =>
    obtain ⟨rest, hrest⟩ := ih
    by_cases hc : ∃ value, c = .assign name value ∧ Visible (later ++ h) scope name
    · obtain ⟨value, rfl, hvisible⟩ := hc
      exact ⟨rest, .leaveOut hvisible hrest⟩
    · exact ⟨c :: rest, .keep (fun value heq hvisible => hc ⟨value, heq, hvisible⟩) hrest⟩

/-! ## Lookups and refusals -/

/-- A name has a binding if some open scope binds it, and then the one that the history says. -/
theorem binding?_after (h : History) (name : String) :
    ((after h).binding? name = none ∧ ∀ scope, ¬Binds h scope name) ∨
      ∃ scope b, (after h).binding? name = some b ∧ Visible h scope name ∧
        (∃ value past, Declared h scope name value b.mutable past) ∧
        Holds h scope name b.value := by
  have hrecords := records_opened h
  rcases bound_or_unbound name (after h).scopes with
    hnone | ⟨inner, bindings, outer, b, hscopes, hinner, hb⟩
  · refine .inl ⟨binding?_of_unbound hnone, fun scope hbinds => ?_⟩
    exact not_binds_of_records hrecords hnone scope (mem_opened_iff.mpr hbinds.1) hbinds
  · rw [hscopes] at hrecords
    obtain ⟨inner', scope, outer', hopened, hrecords, hscope, -⟩ :=
      exists_of_records_append hrecords
    obtain ⟨hdeclared, hholds⟩ := (hscope name).bound b hb
    exact .inr ⟨scope, b, binding?_of_bound hscopes hinner hb,
      visible_of_records hopened hrecords hscope hinner hb, hdeclared, hholds⟩

/-- The value of a name is the one that was given last to its visible binding. -/
theorem lookup_after_eq_some_iff : (after h).lookup name = some value ↔
    ∃ scope, Visible h scope name ∧ Holds h scope name value := by
  unfold lookup
  rcases binding?_after h name with ⟨hnone, hbinds⟩ | ⟨scope, b, hb, hvisible, -, hholds⟩
  · rw [hnone]
    refine ⟨fun heq => absurd heq (by simp), ?_⟩
    rintro ⟨scope, hvisible, -⟩
    exact absurd hvisible.1 (hbinds scope)
  · rw [hb, Option.map_some, Option.some.injEq]
    constructor
    · rintro rfl
      exact ⟨scope, hvisible, hholds⟩
    · rintro ⟨scope', hvisible', hholds'⟩
      obtain rfl := hvisible.unique hvisible'
      exact hholds.unique hholds'

/-- A name has no value exactly if no open scope binds it. -/
theorem lookup_after_eq_none_iff : (after h).lookup name = none ↔ ∀ scope, ¬Binds h scope name := by
  unfold lookup
  rcases binding?_after h name with ⟨hnone, hbinds⟩ | ⟨scope, b, hb, hvisible, -⟩
  · rw [hnone]
    exact ⟨fun _ => hbinds, fun _ => rfl⟩
  · rw [hb]
    refine ⟨fun heq => absurd heq (by simp), fun hbinds => ?_⟩
    exact absurd hvisible.1 (hbinds scope)

/-- Declarations are refused for one reason only. -/
theorem perform_declare_eq_error_iff :
    env.perform (.declare name value mutable) = .error .declaration ↔
      env.declare? name value mutable = none := by
  cases h : env.declare? name value mutable <;> simp [perform, h]

/-- An assignment is refused for the reason that the environment gives. -/
theorem perform_assign_eq_error_iff {cause : AssignError} :
    env.perform (.assign name value) = .error (.assignment cause) ↔
      env.assign name value = .error cause := by
  cases h : env.assign name value <;> simp [perform, h]

/-- A declaration is refused where no scope is open, or where the innermost one binds the name. -/
theorem declare?_after_eq_none_iff : (after h).declare? name value mutable = none ↔
    (∀ scope, ¬IsOpen h scope) ∨ ∃ scope, Innermost h scope ∧ Binds h scope name := by
  have hrecords := records_opened h
  unfold declare?
  generalize (after h).scopes = scopes at hrecords
  generalize hopened : opened h = ids at hrecords
  cases hrecords with
  | nil =>
    -- No scope is open, so that nothing can be declared.
    refine ⟨fun _ => .inl fun scope hopen => ?_, fun _ => rfl⟩
    exact absurd (mem_opened_iff.mpr hopen) (by simp [hopened])
  | @cons bindings scope _ ids hhead _ =>
    have hscope : Innermost h scope := innermost_iff.mpr ⟨ids, hopened⟩
    cases hb : bindings.lookup name with
    | some b =>
      -- The innermost scope binds the name, and records its declaration.
      obtain ⟨⟨first, past, hdeclared⟩, -⟩ := (hhead name).bound b hb
      simp only [hb, true_iff]
      exact .inr ⟨scope, hscope, hscope.1, first, b.mutable, past, hdeclared⟩
    | none =>
      simp only [hb, reduceCtorEq, false_iff, not_or, not_forall, not_not]
      -- It does not bind the name: a scope that did would be another innermost one.
      refine ⟨⟨scope, hscope.1⟩, ?_⟩
      rintro ⟨scope', hscope', -, first, mutable', past, hdeclared⟩
      obtain ⟨ids', hopened'⟩ := innermost_iff.mp hscope'
      obtain rfl := (List.cons.inj (hopened.symm.trans hopened')).1
      exact (hhead name).unbound hb first mutable' past hdeclared

/-- What an assignment comes to depends on the innermost binding. -/
theorem assign_eq (env : Environment) (name : String) (value : Value) :
    (env.binding? name = none → env.assign name value = .error .unbound) ∧
    ∀ b, env.binding? name = some b →
      (b.mutable = true → ∃ env', env.assign name value = .ok env') ∧
      (b.mutable = false → env.assign name value = .error .immutable) := by
  rcases bound_or_unbound name env.scopes with
    hnone | ⟨inner, bindings, outer, b, hscopes, hinner, hb⟩
  · rw [binding?_of_unbound hnone]
    exact ⟨fun _ => perform_assign_eq_error_iff.mp (perform_assign_of_unbound hnone), by simp⟩
  · have hperform := perform_assign_of_bound value hscopes hinner hb
    rw [binding?_of_bound hscopes hinner hb]
    refine ⟨by simp, fun b' hb' => ?_⟩
    obtain rfl := Option.some.inj hb'
    refine ⟨fun hmutable => ?_, fun himmutable => ?_⟩
    · rw [if_pos hmutable] at hperform
      cases hassign : env.assign name value with
      | ok env' => exact ⟨env', rfl⟩
      | error cause => simp [perform, hassign] at hperform
    · rw [himmutable] at hperform
      exact perform_assign_eq_error_iff.mp hperform

/-- An assignment finds no name exactly if no open scope binds it. -/
theorem assign_after_eq_unbound_iff : (after h).assign name value = .error .unbound ↔
    ∀ scope, ¬Binds h scope name := by
  obtain ⟨hunbound, hbound⟩ := assign_eq (after h) name value
  rcases binding?_after h name with ⟨hnone, hbinds⟩ | ⟨scope, b, hb, hvisible, -⟩
  · exact ⟨fun _ => hbinds, fun _ => hunbound hnone⟩
  · obtain ⟨hmutable, himmutable⟩ := hbound b hb
    refine ⟨fun heq => ?_, fun hbinds => absurd hvisible.1 (hbinds scope)⟩
    cases hm : b.mutable with
    | true =>
      obtain ⟨env', hok⟩ := hmutable hm
      exact absurd (heq.symm.trans hok) (by simp)
    | false => exact absurd (heq.symm.trans (himmutable hm)) (by simp)

/-- A name is declared in a scope at most once. -/
theorem Declared.mutable_eq {value' : Value} {mutable' : Bool} {past past' : History}
    (hdeclared : Declared h scope name value mutable past)
    (hdeclared' : Declared h scope name value' mutable' past') : mutable = mutable' := by
  -- Of two declarations the later one would have been refused.
  have hrefused : ∀ {v v' : Value} {m m' : Bool} {p p' : History}, Declared h scope name v m p →
      Declared h scope name v' m' p' → ¬p.length < p'.length := by
    -- The earlier declaration is part of what the later one found.
    rintro v v' m m' p p' ⟨hmade, hscope⟩ ⟨⟨hsuffix', env, hok⟩, hscope'⟩ hlt
    have hearlier : .declare name v m :: p <:+ p' :=
      List.suffix_of_suffix_length_le hmade.1 ((List.suffix_cons _ _).trans hsuffix') hlt
    have hbinds : Binds p' scope name :=
      ⟨hscope'.1, v, m, p, ⟨hearlier, hmade.2⟩, hscope⟩
    have hnone : (after p').declare? name v' m' = none :=
      declare?_after_eq_none_iff.mpr (.inr ⟨scope, hscope', hbinds⟩)
    rw [perform_declare_eq_error_iff.mpr hnone] at hok
    exact absurd hok (by simp)
  -- Neither is later, so that both are the same change.
  have hlength := Nat.le_antisymm (Nat.not_lt.mp (hrefused hdeclared' hdeclared))
    (Nat.not_lt.mp (hrefused hdeclared hdeclared'))
  obtain rfl : past = past' := by
    have hsuffix := (List.suffix_cons _ _).trans hdeclared.1.1
    have hsuffix' := (List.suffix_cons _ _).trans hdeclared'.1.1
    exact (List.suffix_of_suffix_length_le hsuffix hsuffix' (by omega)).eq_of_length (by omega)
  exact (Change.declare.inj (hdeclared.1.unique hdeclared'.1)).2.2

/-- An assignment finds a name that must not be assigned to exactly if the visible binding was
declared so. -/
theorem assign_after_eq_immutable_iff : (after h).assign name value = .error .immutable ↔
    ∃ scope first past, Visible h scope name ∧ Declared h scope name first false past := by
  obtain ⟨hunbound, hbound⟩ := assign_eq (after h) name value
  -- Either no scope binds the name, or the visible one records how it was declared.
  rcases binding?_after h name with
    ⟨hnone, hbinds⟩ | ⟨scope, b, hb, hvisible, ⟨first, past, hdeclared⟩, -⟩
  · rw [hunbound hnone]
    refine ⟨fun heq => absurd heq (by simp), ?_⟩
    rintro ⟨scope, -, -, hvisible, -⟩
    exact absurd hvisible.1 (hbinds scope)
  · obtain ⟨hmutable, himmutable⟩ := hbound b hb
    constructor
    · -- A mutable binding would have taken the value.
      intro heq
      cases hm : b.mutable with
      | true =>
        obtain ⟨env', hok⟩ := hmutable hm
        exact absurd (heq.symm.trans hok) (by simp)
      | false => exact ⟨scope, first, past, hvisible, hm ▸ hdeclared⟩
    · rintro ⟨scope', first', past', hvisible', hdeclared'⟩
      -- The scope in question is the visible one, whose declarations all agree.
      obtain rfl := hvisible.unique hvisible'
      exact himmutable (hdeclared.mutable_eq hdeclared')

/-- An assignment is answered by the innermost binding. -/
theorem answer_assign (env : Environment) (name : String) (value : Value) :
    env.answer (.assign name value) =
      match env.binding? name with
      | none => .error (.assignment .unbound)
      | some b => if b.mutable then .ok () else .error (.assignment .immutable) := by
  obtain ⟨hunbound, hbound⟩ := assign_eq env name value
  cases hb : env.binding? name with
  | none => simp [answer, perform, hunbound hb, Except.map]
  | some b =>
    obtain ⟨hmutable, himmutable⟩ := hbound b hb
    cases hm : b.mutable with
    | true =>
      obtain ⟨env', hok⟩ := hmutable hm
      simp [answer, perform, hok, Except.map, hm]
    | false => simp [answer, perform, himmutable hm, Except.map, hm]

/-! ## Changes to a scope -/

end Environment

namespace Scope

/-- A scope behind a declaration, which is refused if the scope binds the name. -/
def declared (name : String) (value : Value) (mutable : Bool) (scope : Scope) : Scope :=
  match scope.lookup name with
  | some _ => scope
  | none => (name, ⟨value, mutable⟩) :: scope

/-- A scope behind an assignment to a name that it binds, which is refused if the binding is not
mutable. -/
def assigned (name : String) (value : Value) (scope : Scope) : Scope :=
  match scope.lookup name with
  | some b => if b.mutable then scope.set name value else scope
  | none => scope

variable {scope bindings bindings' : Scope} {name x y : String} {value : Value} {mutable : Bool}

/-- In a scope, a declaration binds its name unless that is bound, and no other name. -/
theorem lookup_declared : (scope.declared x value mutable).lookup y =
    if y = x then (scope.lookup x).or (some ⟨value, mutable⟩) else scope.lookup y := by
  unfold declared
  by_cases hy : y = x
  · subst hy
    rw [if_pos rfl]
    cases hb : scope.lookup y with
    | none => exact List.lookup_cons_self
    | some b => exact hb
  · rw [if_neg hy]
    cases scope.lookup x with
    | none =>
      show List.lookup y (_ :: scope) = _
      rw [List.lookup_cons, beq_eq_false_iff_ne.mpr hy]
    | some b => rfl

/-- In a scope, an assignment changes the value of its name if that is bound and mutable, and no
other one. -/
theorem lookup_assigned : (scope.assigned x value).lookup y =
    if y = x then (scope.lookup x).map fun b => if b.mutable then { b with value } else b
    else scope.lookup y := by
  unfold assigned
  cases hb : scope.lookup x with
  | none =>
    -- The scope does not bind the assigned name.
    by_cases hy : y = x
    · rw [if_pos hy, hy]
      exact hb
    · rw [if_neg hy]
  | some b =>
    rw [Option.map_some]
    show List.lookup y (if b.mutable then scope.set x value else scope) = _
    -- It does, and the value is new unless the binding is immutable.
    by_cases hy : y = x
    · subst hy
      rw [if_pos rfl]
      cases hm : b.mutable with
      | true => rw [if_pos rfl, if_pos rfl, Scope.lookup_set, if_pos rfl, hb, Option.map_some, hm]
      | false => rw [if_neg Bool.false_ne_true, if_neg Bool.false_ne_true, hb]
    · rw [if_neg hy]
      split
      · rw [Scope.lookup_set, if_neg hy]
      · rfl

/-- Whether two scopes bind all names alike, but for one. -/
def Agree (name : String) (bindings bindings' : Scope) : Prop :=
  ∀ x, x ≠ name → bindings.lookup x = bindings'.lookup x

/-- What is bound stays bound when something is declared. -/
theorem lookup_declared_ne_none (hbound : scope.lookup y ≠ none) :
    (scope.declared x value mutable).lookup y ≠ none := by
  rw [lookup_declared]
  split
  · cases scope.lookup x <;> simp
  · exact hbound

/-- What is bound stays bound when something is assigned to. -/
theorem lookup_assigned_ne_none (hbound : scope.lookup y ≠ none) :
    (scope.assigned x value).lookup y ≠ none := by
  rw [lookup_assigned]
  split
  · next hy => simpa [hy] using hbound
  · exact hbound

/-- A declaration of `name` is seen under that name only. -/
theorem agree_declared : Agree name scope (scope.declared name value mutable) := fun x hx => by
  rw [lookup_declared, if_neg hx]

/-- An assignment to `name` is seen under that name only. -/
theorem agree_assigned : Agree name scope (scope.assigned name value) := fun x hx => by
  rw [lookup_assigned, if_neg hx]

/-- Scopes agree in either order. -/
theorem Agree.symm (hagree : Agree name bindings bindings') : Agree name bindings' bindings :=
  fun x hx => (hagree x hx).symm

/-- Scopes that agree but for one name still do when the same is declared in both. -/
theorem Agree.declared (hagree : Agree name bindings bindings') (x : String) (value : Value)
    (mutable : Bool) :
    Agree name (bindings.declared x value mutable) (bindings'.declared x value mutable) := by
  intro y hy
  rw [lookup_declared, lookup_declared]
  split
  · next heq => rw [hagree x (heq ▸ hy)]
  · exact hagree y hy

/-- Scopes that agree but for one name still do when the same is assigned in both. -/
theorem Agree.assigned (hagree : Agree name bindings bindings') (x : String) (value : Value) :
    Agree name (bindings.assigned x value) (bindings'.assigned x value) := by
  intro y hy
  rw [lookup_assigned, lookup_assigned]
  split
  · next heq => rw [hagree x (heq ▸ hy)]
  · exact hagree y hy

end Scope

namespace Environment

variable {h scope later rest : History} {name x : String} {value v : Value} {mutable m : Bool}
  {env env' : Environment} {c : Change} {inner outer scopes scopes' : List Scope}
  {bindings bindings' : Scope} {b : Binding}

/-- A declaration is a matter of the innermost scope. -/
theorem change_declare : (⟨bindings :: outer⟩ : Environment).change (.declare name value mutable) =
    ⟨bindings.declared name value mutable :: outer⟩ := by
  cases hb : bindings.lookup name <;> simp [change, perform, declare?, Scope.declared, hb]

/-- An assignment is a matter of the innermost scope if that binds the name. -/
theorem change_assign_of_some (hb : bindings.lookup name = some b) :
    (⟨bindings :: outer⟩ : Environment).change (.assign name value) =
      ⟨bindings.assigned name value :: outer⟩ := by
  cases hm : b.mutable <;>
    simp [change, perform, assign, assignIn, Except.map, Scope.assigned, hb, hm]

/-- An assignment is a matter of the scopes further out if the innermost one does not bind the
name. -/
theorem change_assign_of_none (hb : bindings.lookup name = none) :
    (⟨bindings :: outer⟩ : Environment).change (.assign name value) =
      ⟨bindings :: ((⟨outer⟩ : Environment).change (.assign name value)).scopes⟩ := by
  cases houter : assignIn name value outer <;>
    simp [change, perform, assign, assignIn, Except.map, hb, houter]

/-! ## Other names -/

/-- Whether two environments bind all names alike, but for one. -/
def Agree (name : String) (env env' : Environment) : Prop :=
  List.Forall₂ (Scope.Agree name) env.scopes env'.scopes

namespace Agree

/-- An environment agrees with itself. -/
theorem refl (name : String) (env : Environment) : Agree name env env :=
  List.forall₂_same.mpr fun _ _ _ _ => rfl

/-- Environments agree in either order. -/
theorem symm (hagree : Agree name env env') : Agree name env' env :=
  List.Forall₂.flip (hagree.imp fun _ _ hbindings => hbindings.symm)

/-- Environments that agree with the same one, but for the same name, agree. -/
theorem trans {env'' : Environment} (hagree : Agree name env env')
    (hagree' : Agree name env' env'') : Agree name env env'' := by
  obtain ⟨scopes⟩ := env
  obtain ⟨scopes'⟩ := env'
  obtain ⟨scopes''⟩ := env''
  change List.Forall₂ _ scopes scopes' at hagree
  change List.Forall₂ _ scopes' scopes'' at hagree'
  show List.Forall₂ _ scopes scopes''
  induction hagree generalizing scopes'' with
  | nil => exact hagree'
  | cons hhead _ ih =>
    obtain _ | ⟨hhead', htail'⟩ := hagree'
    exact .cons (fun x hx => (hhead x hx).trans (hhead' x hx)) (ih _ htail')

/-- A name is bound alike unless it is the one that may not be. -/
theorem binding?_eq (hagree : Agree name env env') (hx : x ≠ name) :
    env.binding? x = env'.binding? x := by
  obtain ⟨scopes⟩ := env
  obtain ⟨scopes'⟩ := env'
  change List.Forall₂ _ scopes scopes' at hagree
  show scopes.findSome? _ = scopes'.findSome? _
  induction hagree with
  | nil => rfl
  | cons hhead _ ih => rw [List.findSome?_cons, List.findSome?_cons, hhead x hx, ih]

/-- A change that is not about the name is answered alike. -/
theorem answer_eq (hagree : Agree name env env') (hc : c.name? ≠ some name) :
    env.answer c = env'.answer c := by
  cases c with
  | push => rfl
  | pop => rfl
  -- Both kinds of changes look up a name that is another one than `name`.
  | assign x value =>
    rw [answer_assign, answer_assign, hagree.binding?_eq fun hx => hc (congrArg some hx)]
  | declare x value mutable =>
    have hx : x ≠ name := fun hx => hc (congrArg some hx)
    obtain ⟨scopes⟩ := env
    obtain ⟨scopes'⟩ := env'
    change List.Forall₂ _ scopes scopes' at hagree
    cases hagree with
    | nil => rfl
    | @cons bindings bindings' _ _ hhead _ =>
      have hlookup := hhead x hx
      cases hb : bindings.lookup x with
      | none => simp [answer, perform, declare?, hb, hlookup ▸ hb, Except.map]
      | some b => simp [answer, perform, declare?, hb, hlookup ▸ hb, Except.map]

end Agree

/-- What is done to a name makes no difference to other names. -/
theorem agree_change (hc : c.name? = some name) (env : Environment) :
    Agree name env (env.change c) := by
  obtain ⟨scopes⟩ := env
  cases c with
  -- Only declarations and assignments have a name.
  | push | pop => exact absurd hc (by simp [Change.name?])
  | declare x value mutable =>
    obtain rfl : x = name := Option.some.inj hc
    cases scopes with
    | nil => exact .refl _ _
    | cons bindings outer =>
      rw [change_declare]
      exact .cons Scope.agree_declared (List.forall₂_same.mpr fun _ _ _ _ => rfl)
  | assign x value =>
    obtain rfl : x = name := Option.some.inj hc
    -- An assignment goes on to the first scope that binds the name.
    induction scopes with
    | nil => exact .refl _ _
    | cons bindings outer ih =>
      cases hb : bindings.lookup x with
      | some b =>
        rw [change_assign_of_some hb]
        exact .cons Scope.agree_assigned (List.forall₂_same.mpr fun _ _ _ _ => rfl)
      | none =>
        rw [change_assign_of_none hb]
        exact .cons (fun _ _ => rfl) ih

/-- Environments that differ in one name go on to do so. -/
theorem Agree.change (hagree : Agree name env env') (c : Change) :
    Agree name (env.change c) (env'.change c) := by
  -- A change to the name itself stays unseen on either side.
  by_cases hc : c.name? = some name
  · exact ((agree_change hc env).symm.trans hagree).trans (agree_change hc env')
  obtain ⟨scopes⟩ := env
  obtain ⟨scopes'⟩ := env'
  change List.Forall₂ _ scopes scopes' at hagree
  cases c with
  | push => exact .cons (fun _ _ => rfl) hagree
  | pop =>
    cases hagree with
    | nil => exact .refl _ _
    | cons _ htail => exact htail
  | declare x value mutable =>
    cases hagree with
    | nil => exact .refl _ _
    | cons hhead htail =>
      rw [change_declare, change_declare]
      exact .cons (hhead.declared x value mutable) htail
  | assign x value =>
    have hx : x ≠ name := fun hx => hc (congrArg some hx)
    induction hagree with
    -- Any other name is bound alike in the innermost scopes, so both sides change or go on
    -- together.
    | nil => exact .refl _ _
    | @cons bindings bindings' _ _ hhead htail ih =>
      have hlookup := hhead x hx
      cases hb : bindings.lookup x with
      | some b =>
        rw [change_assign_of_some hb, change_assign_of_some (hlookup ▸ hb)]
        exact .cons (hhead.assigned x value) htail
      | none =>
        rw [change_assign_of_none hb, change_assign_of_none (hlookup ▸ hb)]
        exact .cons hhead ih

/-- Environments that agree but for one name still do when the same has happened to both. -/
theorem agree_after (hagree : Agree name (after h) (after rest)) (later : History) :
    Agree name (after (later ++ h)) (after (later ++ rest)) := by
  induction later with
  | nil => exact hagree
  | cons c later ih => exact ih.change c

/-! ## Outer bindings -/

/-- Whether scopes are the same but for the binding of a name in one of them, which `n` scopes lie
in. It is there in the first scopes, and in the second ones too if `both` holds. -/
inductive Differ (both : Prop) (name : String) : Nat → List Scope → List Scope → Prop where
  | here {bindings bindings' : Scope} {outer : List Scope}
      (hagree : Scope.Agree name bindings bindings') (hbound : bindings.lookup name ≠ none)
      (hboth : both → bindings'.lookup name ≠ none) :
      Differ both name 0 (bindings :: outer) (bindings' :: outer)
  | inside {n : Nat} {scopes scopes' : List Scope} (bindings : Scope)
      (hdiffer : Differ both name n scopes scopes') :
      Differ both name (n + 1) (bindings :: scopes) (bindings :: scopes')

variable {both : Prop} {n : Nat}

namespace Differ

/-- The one scope splits the scopes that bind the name. -/
theorem exists_eq_append (hdiffer : Differ both name n scopes scopes') :
    ∃ inner bindings outer b, scopes = inner ++ bindings :: outer ∧ inner.length = n ∧
      bindings.lookup name = some b := by
  induction hdiffer with
  | here _ hbound _ =>
    obtain ⟨b, hb⟩ := Option.ne_none_iff_exists'.mp hbound
    exact ⟨[], _, _, b, rfl, rfl, hb⟩
  | inside first _ ih =>
    obtain ⟨inner, bindings, outer, b, rfl, rfl, hb⟩ := ih
    exact ⟨first :: inner, bindings, outer, b, rfl, rfl, hb⟩

/-- A declaration is made in the innermost scope on both sides. -/
theorem declare (hdiffer : Differ both name n scopes scopes') (x : String) (value : Value)
    (mutable : Bool) :
    Differ both name n ((⟨scopes⟩ : Environment).change (.declare x value mutable)).scopes
      ((⟨scopes'⟩ : Environment).change (.declare x value mutable)).scopes := by
  cases hdiffer with
  | here hagree hbound hboth =>
    rw [change_declare, change_declare]
    exact .here (hagree.declared x value mutable) (Scope.lookup_declared_ne_none hbound)
      fun h => Scope.lookup_declared_ne_none (hboth h)
  | inside bindings hdiffer =>
    rw [change_declare, change_declare]
    exact .inside _ hdiffer

/-- An assignment is made to the same scope on both sides, unless it finds the name in the one scope
on the first side only. -/
theorem assign (hdiffer : Differ both name n scopes scopes')
    (hx : x = name → both ∨ ∃ s ∈ scopes.take n, s.lookup name ≠ none) (value : Value) :
    Differ both name n ((⟨scopes⟩ : Environment).change (.assign x value)).scopes
      ((⟨scopes'⟩ : Environment).change (.assign x value)).scopes := by
  induction hdiffer with
  | @here bindings bindings' outer hagree hbound hboth =>
    -- Both scopes bind the assigned name and take the value.
    have hassigned : ∀ b b', bindings.lookup x = some b → bindings'.lookup x = some b' →
        Differ both name 0
          ((⟨bindings :: outer⟩ : Environment).change (.assign x value)).scopes
          ((⟨bindings' :: outer⟩ : Environment).change (.assign x value)).scopes := by
      intro b b' hb hb'
      rw [change_assign_of_some hb, change_assign_of_some hb']
      exact .here (hagree.assigned x value) (Scope.lookup_assigned_ne_none hbound)
        fun h => Scope.lookup_assigned_ne_none (hboth h)
    by_cases hname : x = name
    · -- The name in question: it may only be assigned to here if both scopes bind it.
      rcases hx hname with h | ⟨s, hs, -⟩
      · subst hname
        obtain ⟨b, hb⟩ := Option.ne_none_iff_exists'.mp hbound
        obtain ⟨b', hb'⟩ := Option.ne_none_iff_exists'.mp (hboth h)
        exact hassigned b b' hb hb'
      · exact absurd hs (by simp)
    · -- Another name, which either both scopes bind or neither.
      have hlookup := hagree x hname
      cases hb : bindings.lookup x with
      | some b => exact hassigned b b hb (hlookup ▸ hb)
      | none =>
        rw [change_assign_of_none hb, change_assign_of_none (hlookup ▸ hb)]
        exact .here hagree hbound hboth
  | @inside n scopes scopes' bindings hdiffer ih =>
    -- The scope is the same on both sides: an assignment ends in it or goes further out.
    cases hb : bindings.lookup x with
    | some b =>
      rw [change_assign_of_some hb, change_assign_of_some hb]
      exact .inside _ hdiffer
    | none =>
      rw [change_assign_of_none hb, change_assign_of_none hb]
      refine .inside _ (ih fun hname => (hx hname).imp_right ?_)
      rintro ⟨s, hs, hne⟩
      rw [List.take_succ_cons, List.mem_cons] at hs
      rcases hs with rfl | hs
      · exact absurd (hname ▸ hb) hne
      · exact ⟨s, hs, hne⟩

/-- An assignment that finds the name in the one scope makes no other difference. -/
theorem leaveOut (hdiffer : Differ both name n scopes scopes')
    (hinner : ∀ s ∈ scopes.take n, s.lookup name = none) (value : Value) :
    Differ both name n ((⟨scopes⟩ : Environment).change (.assign name value)).scopes scopes' := by
  induction hdiffer with
  | here hagree hbound hboth =>
    obtain ⟨b, hb⟩ := Option.ne_none_iff_exists'.mp hbound
    rw [change_assign_of_some hb]
    exact .here (fun x hx => (Scope.agree_assigned x hx).symm.trans (hagree x hx))
      (Scope.lookup_assigned_ne_none hbound) hboth
  | inside bindings hdiffer ih =>
    rw [List.take_succ_cons, List.forall_mem_cons] at hinner
    rw [change_assign_of_none hinner.1]
    exact .inside _ (ih hinner.2)

end Differ

/-- A scope that binds a name is the innermost one that does if no scope in it binds the name. -/
theorem visible_iff {inner outer : List History} (hopened : opened h = inner ++ scope :: outer)
    (hdiffer : Differ both name inner.length (after h).scopes scopes') :
    Visible h scope name ↔
      ∀ s ∈ (after h).scopes.take inner.length, s.lookup name = none := by
  have hrecords := records_opened h
  obtain ⟨inner', bindings, outer', b, hscopes, hlength, hb⟩ := hdiffer.exists_eq_append
  rw [hscopes] at hrecords ⊢
  -- The recorded scopes in front of the differing one are those further in.
  obtain ⟨ids, scope', ids', hids, hinner, hhead, -⟩ := exists_of_records_append hrecords
  obtain ⟨rfl, hrest⟩ := List.append_inj (hopened.symm.trans hids)
    (hlength.symm.trans hinner.length_eq)
  obtain ⟨rfl, rfl⟩ := List.cons.inj hrest
  rw [← hlength, List.take_left]
  constructor
  · intro hvisible
    rcases bound_or_unbound name inner' with
      hnone | ⟨before, first, between, b', rfl, hbefore, hb'⟩
    · exact hnone
    · -- A scope in front of it that bound the name would be the visible one.
      obtain ⟨ids₁, other, ids₂, rfl, hids₁, hother, -⟩ := exists_of_records_append hinner
      rw [List.append_assoc, List.cons_append] at hids
      have hvisible' := visible_of_records hids hids₁ hother hbefore hb'
      exact absurd (hvisible'.unique hvisible)
        (ne_of_opened hopened (.inl (List.mem_append_right _ List.mem_cons_self)))
  · intro hnone
    exact visible_of_records hopened hinner hhead hnone hb

/-- Whether the environment behind a history is another one but for a name in a scope, and the same
if the scope is closed. -/
def Hidden (both : Prop) (scope : History) (name : String) (h : History) (env' : Environment) :
    Prop :=
  (∃ inner outer, opened h = inner ++ scope :: outer ∧
    Differ both name inner.length (after h).scopes env'.scopes) ∨
  (¬IsOpen h scope ∧ after h = env')

namespace Hidden

/-- Once the scope has been closed that made the difference, the environments are the same. -/
theorem eq_of_not_isOpen (hhidden : Hidden both scope name h env') (hopen : ¬IsOpen h scope) :
    after h = env' := by
  rcases hhidden with ⟨inner, outer, hopened, -⟩ | ⟨-, heq⟩
  · exact absurd (mem_opened_iff.mp (hopened ▸ List.mem_append_right _ List.mem_cons_self)) hopen
  · exact heq

/-- Changes that are made on both sides keep the difference where it is. -/
theorem change (hhidden : Hidden both scope name h env') (hlength : scope.length < h.length)
    (hc : both ∨ ∀ value, c = .assign name value → ¬Visible h scope name) :
    Hidden both scope name (c :: h) (env'.change c) := by
  -- The scope is open and differs, or it has been closed and nothing differs.
  rcases hhidden with ⟨inner, outer, hopened, hdiffer⟩ | ⟨hclosed, rfl⟩
  · cases c with
    | push => exact .inl ⟨h :: inner, outer, congrArg (h :: ·) hopened, .inside _ hdiffer⟩
    | declare x value mutable => exact .inl ⟨inner, outer, hopened, hdiffer.declare x value mutable⟩
    | assign x value =>
      refine .inl ⟨inner, outer, hopened, hdiffer.assign (fun hx => ?_) value⟩
      subst hx
      refine hc.imp_right fun hvisible => ?_
      -- Where only one side binds the name, the assignment reached a scope further in.
      have hnot := hvisible value rfl
      rw [visible_iff hopened hdiffer] at hnot
      simpa using hnot
    | pop =>
      cases inner with
      -- The scope itself is closed, and with it the difference goes.
      | nil =>
        generalize hscopes : (after h).scopes = scopes at hdiffer
        generalize hscopes' : env'.scopes = scopes' at hdiffer
        cases hdiffer with
        | @here bindings bindings' outer' _ _ _ =>
          refine .inr ⟨fun hopen => ?_, ?_⟩
          · have hmem : scope ∈ (opened h).tail := mem_opened_iff.mpr hopen
            rw [hopened] at hmem
            exact ne_of_opened hopened (.inr hmem) rfl
          · show (⟨(after h).scopes.tail⟩ : Environment) = ⟨env'.scopes.tail⟩
            rw [hscopes, hscopes']
            rfl
      -- A scope further in is closed.
      | cons first inner =>
        refine .inl ⟨inner, outer, congrArg List.tail hopened, ?_⟩
        show Differ both name inner.length (after h).scopes.tail env'.scopes.tail
        generalize (after h).scopes = scopes at hdiffer
        generalize env'.scopes = scopes' at hdiffer
        cases hdiffer with
        | inside _ hdiffer => exact hdiffer
  · -- What has been closed is not opened again: a scope that is opened now is a later one.
    refine .inr ⟨fun hopen => ?_, rfl⟩
    rcases eq_or_mem_of_mem_opened (mem_opened_iff.mpr hopen) with rfl | hmem
    · exact Nat.lt_irrefl _ hlength
    · exact hclosed (mem_opened_iff.mp hmem)

/-- An assignment that finds the name in the one scope can be left out. -/
theorem leaveOut (hhidden : Hidden both scope name h env') (hvisible : Visible h scope name)
    (value : Value) : Hidden both scope name (.assign name value :: h) env' := by
  rcases hhidden with ⟨inner, outer, hopened, hdiffer⟩ | ⟨hclosed, -⟩
  · have hinner := (visible_iff hopened hdiffer).mp hvisible
    exact .inl ⟨inner, outer, hopened, hdiffer.leaveOut hinner value⟩
  · exact absurd hvisible.1.1 hclosed

/-- A difference in which only the first side binds the name is kept if the assignments to it are
left out. -/
theorem without {h' : History} (hhidden : Hidden False scope name h (after h'))
    (hlength : scope.length < h.length) (hwithout : Without h scope name later rest) :
    Hidden False scope name (later ++ h) (after (rest ++ h')) := by
  induction hwithout with
  | nil => exact hhidden
  | keep hc _ ih =>
    refine ih.change ?_ (.inr hc)
    rw [List.length_append]
    omega
  | leaveOut hvisible _ ih => exact ih.leaveOut hvisible _

/-- A difference in which both sides bind the name is kept by all changes. -/
theorem both_append {h' : History} (hhidden : Hidden True scope name h (after h'))
    (hlength : scope.length < h.length) (later : History) :
    Hidden True scope name (later ++ h) (after (later ++ h')) := by
  induction later with
  | nil => exact hhidden
  | cons c later ih =>
    refine ih.change ?_ (.inl trivial)
    rw [List.length_append]
    omega

end Hidden

/-- A declaration makes a difference in the innermost scope. -/
theorem hidden_of_declare (hok : (after h).perform (.declare name value mutable) = .ok env')
    (hscope : Innermost h scope) :
    Hidden False scope name (.declare name value mutable :: h) (after h) := by
  obtain ⟨outer, hopened⟩ := innermost_iff.mp hscope
  obtain ⟨bindings, outer', hscopes, hnone, rfl⟩ := perform_declare_eq_ok_iff.mp hok
  refine .inl ⟨[], outer, hopened, ?_⟩
  show Differ False name 0 ((after h).change _).scopes (after h).scopes
  rw [change_of_ok hok, hscopes]
  refine .here (fun x hx => ?_) (by simp [List.lookup_cons_self]) False.elim
  rw [List.lookup_cons, beq_eq_false_iff_ne.mpr hx]

/-- Scopes with a bound name differ in it at most, which they need not do. -/
theorem Differ.refl (inner outer : List Scope) (hb : bindings.lookup name = some b) :
    Differ both name inner.length (inner ++ bindings :: outer) (inner ++ bindings :: outer) := by
  have hbound : bindings.lookup name ≠ none := by simp [hb]
  induction inner with
  | nil => exact .here (fun _ _ => rfl) hbound fun _ => hbound
  | cons first inner ih => exact .inside first ih

/-- An assignment makes a difference in the innermost scope that binds the name. -/
theorem hidden_of_assign (hvisible : Visible h scope name) (value : Value) :
    Hidden True scope name (.assign name value :: h) (after h) := by
  refine Hidden.leaveOut ?_ hvisible value
  have hrecords := records_opened h
  rcases bound_or_unbound name (after h).scopes with
    hnone | ⟨inner, bindings, outer, b, hscopes, hinner, hb⟩
  · exact absurd hvisible.1
      (not_binds_of_records hrecords hnone scope (mem_opened_iff.mpr hvisible.1.1))
  · rw [hscopes] at hrecords
    obtain ⟨inner', scope', outer', hopened, hrecords, hhead, -⟩ :=
      exists_of_records_append hrecords
    obtain rfl := hvisible.unique (visible_of_records hopened hrecords hhead hinner hb)
    refine .inl ⟨inner', outer', hopened, ?_⟩
    rw [hscopes, ← hrecords.length_eq]
    exact .refl inner outer hb

/-- A declaration that is not refused is made in a scope. -/
theorem innermost_of_declare (hok : (after h).perform (.declare name value mutable) = .ok env') :
    ∃ scope, Innermost h scope := by
  obtain ⟨bindings, outer, hscopes, -, -⟩ := perform_declare_eq_ok_iff.mp hok
  have hrecords := records_opened h
  rw [hscopes] at hrecords
  generalize hopened : opened h = ids at hrecords
  obtain _ | ⟨-, -⟩ := hrecords
  exact ⟨_, innermost_iff.mpr ⟨_, hopened⟩⟩

/-- An assignment that is not refused is made to a binding. -/
theorem visible_of_assign (hok : (after h).perform (.assign name value) = .ok env') :
    ∃ scope, Visible h scope name := by
  rcases binding?_after h name with ⟨hnone, -⟩ | ⟨scope, -, -, hvisible, -⟩
  · have hunbound := (assign_eq (after h) name value).1 hnone
    rw [perform_assign_eq_error_iff.mpr hunbound] at hok
    exact absurd hok (by simp)
  · exact ⟨scope, hvisible⟩

/-- A change that is refused makes no difference. -/
theorem after_append_of_error {refusal : Refusal} (herror : (after h).perform c = .error refusal)
    (later : History) : after (later ++ c :: h) = after (later ++ h) := by
  induction later with
  | nil => exact change_of_error herror
  | cons first later ih => exact congrArg (·.change first) ih

/-! ## Block structure -/

/-- Environments are block-structured. Behind any history, a name stands for the value that was
given last to the innermost open binding of it, a declaration is refused where there is no scope for
it or where it would be a second one, and an assignment where there is nothing that it can be made
to. A change that is refused makes no difference to anything that follows, and one that is not makes
none to other names. It makes none to outer bindings of its own name either: when the scope is
closed that it was made in, the environment is the one that there would be without the change, and,
if it was a declaration, without the assignments that have found its binding. -/
theorem scopes_shadow (h : History) (name : String) :
    (∀ value, (after h).lookup name = some value ↔
      ∃ scope, Visible h scope name ∧ Holds h scope name value) ∧
    ((after h).lookup name = none ↔ ∀ scope, ¬Binds h scope name) ∧
    (∀ value mutable, (after h).declare? name value mutable = none ↔
      (∀ scope, ¬IsOpen h scope) ∨ ∃ scope, Innermost h scope ∧ Binds h scope name) ∧
    (∀ value, (after h).assign name value = .error .unbound ↔ ∀ scope, ¬Binds h scope name) ∧
    (∀ value, (after h).assign name value = .error .immutable ↔
      ∃ scope first past, Visible h scope name ∧ Declared h scope name first false past) ∧
    (∀ c refusal, (after h).perform c = .error refusal →
      ∀ later, after (later ++ c :: h) = after (later ++ h)) ∧
    (∀ c, c.name? = some name → ∀ later,
      (∀ other, other ≠ name →
        (after (later ++ c :: h)).lookup other = (after (later ++ h)).lookup other) ∧
      ∀ next, next.name? ≠ some name →
        (after (later ++ c :: h)).answer next = (after (later ++ h)).answer next) ∧
    (∀ value mutable env, (after h).perform (.declare name value mutable) = .ok env →
      ∃ scope, Innermost h scope ∧
        ∀ later, ¬IsOpen (later ++ .declare name value mutable :: h) scope →
          ∃ rest, Without (.declare name value mutable :: h) scope name later rest ∧
            after (later ++ .declare name value mutable :: h) = after (rest ++ h)) ∧
    (∀ value env, (after h).perform (.assign name value) = .ok env →
      ∃ scope, Visible h scope name ∧
        ∀ later, ¬IsOpen (later ++ .assign name value :: h) scope →
          after (later ++ .assign name value :: h) = after (later ++ h)) := by
  refine ⟨fun value => lookup_after_eq_some_iff, lookup_after_eq_none_iff,
    fun value mutable => declare?_after_eq_none_iff, fun value => assign_after_eq_unbound_iff,
    fun value => assign_after_eq_immutable_iff,
    fun c refusal herror later => after_append_of_error herror later, fun c hc later => ?_,
    fun value mutable env hok => ?_, fun value env hok => ?_⟩
  · -- What follows a change to the name sees the others alike.
    have hchange : Agree name (after (c :: h)) (after h) := (agree_change hc (after h)).symm
    have hagree := agree_after hchange later
    refine ⟨fun other hother => ?_, fun next hnext => hagree.answer_eq hnext⟩
    exact congrArg (Option.map (·.value)) (hagree.binding?_eq hother)
  · -- A declaration is hidden by its scope, and what only it made possible is left out.
    obtain ⟨scope, hscope⟩ := innermost_of_declare hok
    refine ⟨scope, hscope, fun later hclosed => ?_⟩
    obtain ⟨rest, hrest⟩ := exists_without (.declare name value mutable :: h) scope name later
    have hhidden := (hidden_of_declare hok hscope).without
      (Nat.lt_succ_of_lt hscope.1.length_lt) hrest
    exact ⟨rest, hrest, hhidden.eq_of_not_isOpen hclosed⟩
  · -- An assignment is hidden by the visible scope, which binds the name on both sides.
    obtain ⟨scope, hvisible⟩ := visible_of_assign hok
    refine ⟨scope, hvisible, fun later hclosed => ?_⟩
    have hhidden := (hidden_of_assign hvisible value).both_append
      (Nat.lt_succ_of_lt hvisible.1.1.length_lt) later
    exact hhidden.eq_of_not_isOpen hclosed

/-- In a scope that binds a name, a second declaration of it makes no difference, and an assignment
makes none to other names. Neither the assignment nor the declaration is seen when the scope has
been closed. -/
theorem scopes_shadow_closed :
    let bound : History := [.declare "a" .unit true, .push]
    (∀ later, after (later ++ .declare "a" (.int 1) false :: bound) = after (later ++ bound)) ∧
    (∀ later, (after (later ++ .assign "a" (.int 1) :: bound)).lookup "b" =
      (after (later ++ bound)).lookup "b") ∧
    (∃ rest, after [.pop, .declare "a" .unit true, .push] = after (rest ++ [.push])) ∧
    after [.pop, .assign "a" (.int 1), .declare "a" .unit true, .push] =
      after [.pop, .declare "a" .unit true, .push] := by
  intro bound
  obtain ⟨-, -, -, -, -, hrefused, hother, -, hassign⟩ := scopes_shadow bound "a"
  obtain ⟨-, -, -, -, -, -, -, hdeclare, -⟩ := scopes_shadow [.push] "a"
  refine ⟨hrefused (.declare "a" (.int 1) false) .declaration rfl,
    fun later => (hother (.assign "a" (.int 1)) rfl later).1 "b" (by decide), ?_, ?_⟩
  · -- Closing the only scope leaves none that could be open.
    obtain ⟨scope, -, hclosed⟩ := hdeclare .unit true _ rfl
    obtain ⟨rest, -, hsame⟩ := hclosed [.pop] fun hopen => by
      have hmem := mem_opened_iff.mpr hopen
      cases hmem
    exact ⟨rest, hsame⟩
  · obtain ⟨scope, -, hclosed⟩ := hassign (.int 1) _ rfl
    refine hclosed [.pop] fun hopen => ?_
    have hmem := mem_opened_iff.mpr hopen
    cases hmem

/-- What is assigned while an outer binding is hidden is not seen behind the scope. -/
example : (after [.pop, .assign "a" (.bool true), .declare "a" (.bool false) true, .push,
    .declare "a" .unit true, .push]).lookup "a" = some .unit := by rfl

end Environment

end Brisk
