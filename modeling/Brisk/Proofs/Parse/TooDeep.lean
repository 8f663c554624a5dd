import Brisk.Proofs.Parse.Nesting
import Brisk.Proofs.Tree.Marks

/-!
# Nesting is refused where it gets too deep

Where a parser that may open many levels succeeds, one that may open fewer does the same up to the
first place at which it would open a level that is too deep. It reports that level there
(`program_tracks`).

`Meets` says so of a parser for the marks of a tree, which are passed on the way from one state to
another. It is closed under sequencing, so `Tracks` compares the two parsers part by part: what is
asked of the marks behind a part is what was asked of all of them, with those of the part in front.
The parsers of the level further in are parameters on both sides (`Nested.Tracks`), and the levels
are put together by induction.
-/

namespace Brisk.Parse

variable {α β : Type} {max d : Nat} {s s' s'' : State}

/-! ## Marks that are passed -/

/-- How a parser that may open `max` levels fares where the marks of `a` are passed from `s` to
`s'`. -/
inductive Meets (max : Nat) (p : Parse α) (a : α) (marks : List Mark) (s s' : State) : Prop where
  /-- No level is too deep, and the result is `a`. -/
  | within (hpasses : Passes (Mark.slots marks) s s') (hdeepest : Mark.deepest marks ≤ max)
      (hok : p s = .ok a s')
  /-- The first level that is too deep is refused at the token in front of which it is opened. -/
  | beyond (front back : List Mark) {level : Nat} {s₁ s₂ : State}
      (hmarks : marks = front ++ .opens level :: back) (hdeepest : Mark.deepest front ≤ max)
      (hlevel : max < level) (hfront : Passes (Mark.slots front) s s₁)
      (hback : Passes (Mark.slots back) s₁ s')
      (herror : p s = .error (.invalid s₁.current.position (.nestingTooDeep max)) s₂)

namespace Meets

variable {p : Parse α} {f : α → Parse β} {a : α} {b : β} {marks marks' : List Mark}

/-- The slots of marks that are met are passed. -/
theorem passes (h : Meets max p a marks s s') : Passes (Mark.slots marks) s s' := by
  cases h with
  | within hpasses _ _ => exact hpasses
  | beyond front back hmarks _ _ hfront hback _ =>
    rw [hmarks, Mark.slots_append, Mark.slots_opens]
    exact Passes.append_iff.mpr ⟨_, hfront, hback⟩

/-- Only what the parser does in the first state matters. -/
theorem congr {q : Parse α} (h : Meets max p a marks s s') (hsame : q s = p s) :
    Meets max q a marks s s' := by
  cases h with
  | within hpasses hdeepest hok => exact .within hpasses hdeepest (hsame.trans hok)
  | beyond front back hmarks hdeepest hlevel hfront hback herror =>
    exact .beyond front back hmarks hdeepest hlevel hfront hback (hsame.trans herror)

/-- The marks of a sequence are those of its parts, one after the other. -/
theorem bind (h : Meets max p a marks s s') (h' : Meets max (f a) b marks' s' s'') :
    Meets max (p >>= f) b (marks ++ marks') s s'' := by
  -- The first level that is too deep is opened in the first part, in the second one, or in neither.
  cases h with
  | within hpasses hdeepest hok =>
    have hdo : (p >>= f) s = f a s' := bind_of_ok hok
    cases h' with
    | within hpasses' hdeepest' hok' =>
      refine .within ?_ ?_ (hdo.trans hok')
      · rw [Mark.slots_append]
        exact Passes.append_iff.mpr ⟨s', hpasses, hpasses'⟩
      · rw [Mark.deepest_append]
        exact Nat.max_le.mpr ⟨hdeepest, hdeepest'⟩
    | beyond front back hmarks hdeepest' hlevel hfront hback herror =>
      refine .beyond (marks ++ front) back ?_ ?_ hlevel ?_ hback (hdo.trans herror)
      · rw [hmarks, List.append_assoc]
      · rw [Mark.deepest_append]
        exact Nat.max_le.mpr ⟨hdeepest, hdeepest'⟩
      · rw [Mark.slots_append]
        exact Passes.append_iff.mpr ⟨s', hpasses, hfront⟩
  | beyond front back hmarks hdeepest hlevel hfront hback herror =>
    refine .beyond front (back ++ marks') ?_ hdeepest hlevel hfront ?_ (bind_of_error herror)
    · rw [hmarks, List.append_assoc, List.cons_append]
    · rw [Mark.slots_append]
      exact Passes.append_iff.mpr ⟨s', hback, h'.passes⟩

/-- A result passes no marks. -/
theorem pure (a : α) : Meets max (Pure.pure a) a [] s s :=
  .within (Passes.nil_iff.mpr rfl) (Nat.zero_le max) rfl

/-- Where no level is opened, the parser only has to succeed. -/
theorem plain {places : List Slot} (h : Passes places s s') (hok : p s = .ok a s') :
    Meets max p a (Mark.plain places) s s' := by
  refine .within ?_ ?_ hok
  · rwa [Mark.slots_plain]
  · rw [Mark.deepest_plain]
    exact Nat.zero_le max

/-- A level that is not too deep may be opened in front. -/
theorem opens {level : Nat} (hlevel : level ≤ max) (h : Meets max p a marks s s') :
    Meets max p a (.opens level :: marks) s s' := by
  cases h with
  | within hpasses hdeepest hok =>
    refine .within hpasses ?_ hok
    rw [Mark.deepest_opens]
    exact Nat.max_le.mpr ⟨hlevel, hdeepest⟩
  | beyond front back hmarks hdeepest hlevel' hfront hback herror =>
    refine .beyond (.opens level :: front) back ?_ ?_ hlevel' hfront hback herror
    · rw [hmarks, List.cons_append]
    · rw [Mark.deepest_opens]
      exact Nat.max_le.mpr ⟨hlevel, hdeepest⟩

/-- A dollar sign may be missing in front. -/
theorem blank (h : Meets max p a marks s s') : Meets max p a (.slot .dollar :: marks) s s' := by
  have hdollar : Meets max (Pure.pure ()) () [.slot .dollar] s s :=
    plain (Passes.dollar_iff.mpr (.inl (Passes.nil_iff.mpr rfl))) rfl
  exact hdollar.bind (f := fun _ => p) h

end Meets

/-! ## Two parsers -/

/-- Where the second parser succeeds, it passes marks that its result may have, and the first one
does the same up to the first level that is deeper than `max`. -/
def Tracks (max : Nat) (p p' : Parse α) (M : α → List Mark → Prop) (s : State) : Prop :=
  ∀ a s', p' s = .ok a s' → ∃ marks, M a marks ∧ Meets max p a marks s s'

section Tracks

variable {p p' : Parse α} {f f' : α → Parse β} {M M' : α → List Mark → Prop}
  {N : β → List Mark → Prop}

/-- What is asked of the marks may be weakened. -/
theorem Tracks.mono (h : Tracks max p p' M s) (hM : ∀ a marks, M a marks → M' a marks) :
    Tracks max p p' M' s := by
  intro a s' hok
  obtain ⟨marks, hmarks, hmeets⟩ := h a s' hok
  exact ⟨marks, hM a marks hmarks, hmeets⟩

/-- What has to hold of the marks behind the first part is what has to hold of all of them. -/
theorem tracks_bind (h : Tracks max p p' M s)
    (hf : ∀ a marks s', M a marks → Passes (Mark.slots marks) s s' →
      Tracks max (f a) (f' a) (fun b marks' => N b (marks ++ marks')) s') :
    Tracks max (p >>= f) (p' >>= f') N s := by
  intro b s'' hok
  obtain ⟨a, s', ha, hb⟩ := bind_eq_ok_iff.mp hok
  obtain ⟨marks, hmarks, hmeets⟩ := h a s' ha
  obtain ⟨marks', hmarks', hmeets'⟩ := hf a marks s' hmarks hmeets.passes b s'' hb
  exact ⟨marks ++ marks', hmarks', hmeets.bind hmeets'⟩

/-- A result is compared without marks. -/
theorem tracks_pure {a : α} (h : M a []) : Tracks max (pure a) (pure a) M s := by
  intro b s' hok
  obtain ⟨rfl, rfl⟩ := pure_eq_ok_iff.mp hok
  exact ⟨[], h, .pure a⟩

/-- Nothing is said where the second parser fails. -/
theorem tracks_of_ne_ok (h : ∀ a s', p' s ≠ .ok a s') : Tracks max p p' M s :=
  fun a s' hok => absurd hok (h a s')

/-- A choice is compared branch by branch. -/
theorem tracks_ite {c : Prop} [Decidable c] {q q' : Parse α} (hp : c → Tracks max p p' M s)
    (hq : ¬c → Tracks max q q' M s) :
    Tracks max (if c then p else q) (if c then p' else q') M s := by
  split
  · next h => exact hp h
  · next h => exact hq h

/-- Only what the parsers do in the first state matters. -/
theorem Tracks.congr {q q' : Parse α} (h : Tracks max p p' M s) (hsame : q s = p s)
    (hsame' : q' s = p' s) : Tracks max q q' M s := by
  intro a s' hok
  obtain ⟨marks, hmarks, hmeets⟩ := h a s' (hsame'.symm.trans hok)
  exact ⟨marks, hmarks, hmeets.congr hsame⟩

/-- Both parsers look at the same token in front. -/
theorem tracks_current_bind {f f' : Token → Parse β}
    (h : Tracks max (f s.current.token) (f' s.current.token) N s) :
    Tracks max (current >>= f) (current >>= f') N s :=
  h.congr (current_bind f) (current_bind f')

/-- Both parsers have as many rounds. -/
theorem tracks_rounds_bind {f f' : List Lexed → Parse β}
    (h : Tracks max (f (.ok s.current :: s.ahead.pending)) (f' (.ok s.current :: s.ahead.pending))
      N s) : Tracks max (rounds >>= f) (rounds >>= f') N s :=
  h.congr (rounds_bind f) (rounds_bind f')

/-- A part that opens no level passes its slots on both sides. -/
theorem tracks_bind_same (places : α → List Slot)
    (h : ∀ a s', p s = .ok a s' → Passes (places a) s s')
    (hf : ∀ a s', Passes (places a) s s' →
      Tracks max (f a) (f' a) (fun b marks => N b (Mark.plain (places a) ++ marks)) s') :
    Tracks max (p >>= f) (p >>= f') N s := by
  have hp : Tracks max p p (fun a marks => marks = Mark.plain (places a)) s :=
    fun a s' hok => ⟨_, rfl, .plain (h a s' hok) hok⟩
  refine tracks_bind hp ?_
  rintro a _ s' rfl hpasses
  rw [Mark.slots_plain] at hpasses
  exact hf a s' hpasses

/-- Both parsers take the token in front, which is passed as a mark. -/
theorem tracks_advance_bind {f f' : Unit → Parse β} {t : Token} (ht : s.current.token = t)
    (hne : t ≠ .endOfFile) (hf : ∀ s', Reads s [t] s' →
      Tracks max (f ()) (f' ()) (fun b marks => N b (.token t :: marks)) s') :
    Tracks max (advance >>= f) (advance >>= f') N s :=
  tracks_bind_same (fun _ => [.token t])
    (fun _ _ hok => Passes.single_iff.mpr (reads_of_advance hok ht hne))
    fun _ s' hpasses => hf s' (Passes.single_iff.mp hpasses)

/-- Both parsers take an expected token, which is passed as a mark. -/
theorem tracks_expect_bind {f f' : Unit → Parse β} {t : Token} (hne : t ≠ .endOfFile)
    (hf : ∀ s', Reads s [t] s' →
      Tracks max (f ()) (f' ()) (fun b marks => N b (.token t :: marks)) s') :
    Tracks max (expect t >>= f) (expect t >>= f') N s :=
  tracks_bind_same (fun _ => [.token t])
    (fun _ _ hok => Passes.single_iff.mpr ((expect_eq_ok_iff hne).mp hok))
    fun _ s' hpasses => hf s' (Passes.single_iff.mp hpasses)

/-- Both parsers take a name, which is passed as a mark. -/
theorem tracks_identifier_bind {f f' : String → Parse β}
    (hf : ∀ name s', Reads s [.identifier name] s' →
      Tracks max (f name) (f' name) (fun b marks => N b (.name name :: marks)) s') :
    Tracks max (identifier >>= f) (identifier >>= f') N s :=
  tracks_bind_same (fun name => [.name name])
    (fun _ _ hok => Passes.single_iff.mpr (identifier_eq_ok_iff.mp hok))
    fun name s' hpasses => hf name s' (Passes.single_iff.mp hpasses)

/-- A dollar sign may be missing in front of what is parsed. -/
theorem tracks_blank
    (h : Tracks max p p' (fun a marks => M a marks ∨ M a (.slot .dollar :: marks)) s) :
    Tracks max p p' M s := by
  intro a s' hok
  obtain ⟨marks, hmarks | hmarks, hmeets⟩ := h a s' hok
  · exact ⟨marks, hmarks, hmeets⟩
  · exact ⟨_, hmarks, hmeets.blank⟩

end Tracks

/-- The parsers on one side that open a level within `d` levels do the same as those on the other
side, up to a level that is too deep. -/
structure Nested.Tracks (max d : Nat) (inner inner' : Nested) : Prop where
  expression : ∀ s, s.Closed → Parse.Tracks max inner.expression inner'.expression
    (fun e marks => marks = .opens (d + 1) :: e.marks (d + 1)) s
  block : ∀ s, s.Closed → Parse.Tracks max inner.block inner'.block
    (fun ss marks => marks = .opens (d + 1) :: Stmt.blockMarks (d + 1) ss) s
  /-- A conditional is only parsed when its first token is known to be there. -/
  conditional : ∀ s, s.Closed → s.current.token = .keyword .ifKey →
    Parse.Tracks max inner.conditional inner'.conditional
      (fun c marks => marks = .opens (d + 1) :: c.marks (d + 1)) s

section Level

variable {inner inner' : Nested} (h : Nested.Tracks max d inner inner')
include h

/-! ## Expressions -/

/-- Arguments pass their marks up to the first one that opens a level too deep. -/
theorem argumentList_tracks (rs : List Lexed) : ∀ s : State, s.Closed → s.size ≤ rs.length →
    rs ≠ [] → Tracks max (argumentList inner rs) (argumentList inner' rs)
      (fun es marks => es ≠ [] ∧ marks = Expr.listMarks d es) s := by
  induction rs with
  | nil =>
    intro s _ _ hrs
    exact absurd rfl hrs
  | cons r rs ih =>
    intro s hs hsize _
    unfold argumentList
    refine tracks_bind (h.expression s hs) ?_
    -- The argument has been passed, with the tokens that it is written with.
    rintro e _ s₁ rfl hpasses
    rw [Mark.slots_opens, e.slots_marks] at hpasses
    refine tracks_current_bind (tracks_ite (fun hcomma => ?_) fun _ => ?_)
    · refine tracks_advance_bind hcomma (by simp) fun s₂ hread => ?_
      obtain ⟨hrs, hsize₂⟩ := hpasses.rounds_left hread hs e.tokens_slots_ne_nil hsize
      refine tracks_bind (ih s₂ (hread.closed (hpasses.closed hs)) hsize₂ hrs) ?_
      rintro es _ s₃ ⟨hne, rfl⟩ -
      refine tracks_pure ⟨List.cons_ne_nil e es, ?_⟩
      rw [Expr.listMarks_cons d e hne]
      simp
    · refine tracks_pure ⟨List.cons_ne_nil e [], ?_⟩
      simp [Expr.listMarks]

/-- Arguments in parentheses pass their marks up to the first one that opens a level too deep. -/
theorem arguments_tracks (hs : s.Closed) : Tracks max (arguments inner) (arguments inner')
    (fun es marks => marks = Expr.argumentMarks d es) s := by
  unfold arguments
  -- Whether there are any arguments or none, they are closed by a parenthesis.
  have hclose : ∀ (es : List Expr) (s : State), Tracks max
      (do
        expect (.symbol .rightParen)
        return es)
      (do
        expect (.symbol .rightParen)
        return es)
      (fun es' marks => es' = es ∧ marks = [.symbol .rightParen]) s :=
    fun es s => tracks_expect_bind (by simp) fun _ _ => tracks_pure ⟨rfl, rfl⟩
  refine tracks_expect_bind (by simp) fun s₁ hopen => ?_
  refine tracks_current_bind (tracks_ite (fun _ => ?_) fun _ => ?_)
  · refine (hclose [] s₁).mono ?_
    rintro es _ ⟨rfl, rfl⟩
    rfl
  · refine tracks_rounds_bind (tracks_bind (argumentList_tracks h _ s₁ (hopen.closed hs)
      (size_le_length_rounds s₁) (by simp)) ?_)
    rintro es _ s₂ ⟨-, rfl⟩ -
    refine (hclose es s₂).mono ?_
    rintro es' _ ⟨rfl, rfl⟩
    rfl

/-- What has been consumed is called if arguments follow. -/
theorem callSuffix_tracks (hs : s.Closed) (callee : Expr) :
    Tracks max (callSuffix inner callee) (callSuffix inner' callee)
      (fun e marks => callee.marks d ++ marks = e.marks d) s := by
  unfold callSuffix
  refine tracks_current_bind (tracks_ite (fun _ => ?_) fun _ => ?_)
  · refine tracks_bind (arguments_tracks h hs) ?_
    rintro es _ s₁ rfl -
    refine tracks_pure ?_
    rw [List.append_nil, Expr.marks]
    rfl
  · exact tracks_pure (List.append_nil _)

/-- An operand of the tightest level passes its marks up to the first one that opens a level too
deep. -/
theorem primary_tracks (hs : s.Closed) : Tracks max (primary inner) (primary inner')
    (fun e marks => marks = e.marks d) s := by
  unfold primary
  refine tracks_current_bind ?_
  cases hl : literal? s.current.token with
  | some l =>
    refine tracks_advance_bind (literal?_eq_some hl) (by cases l <;> simp [Literal.token]) ?_
    intro s₁ _
    exact tracks_pure (by rw [Expr.marks])
  | none =>
    simp only
    -- What is no literal starts with a name, a parenthesis, a hash or a bracket.
    split
    · next name ht =>
      refine tracks_advance_bind ht (by simp) fun s₁ hread => ?_
      refine (callSuffix_tracks h (hread.closed hs) (.name name)).mono fun e marks hmarks => ?_
      rw [← hmarks, Expr.marks]
      rfl
    · next ht =>
      refine tracks_advance_bind ht (by simp) fun s₁ hopen => ?_
      have hs₁ := hopen.closed hs
      refine tracks_bind (h.expression s₁ hs₁) ?_
      -- What stands between parentheses is called if arguments follow.
      rintro e _ s₂ rfl hpasses
      refine tracks_expect_bind (by simp) fun s₃ hclose => ?_
      have hs₃ := hclose.closed (hpasses.closed hs₁)
      refine (callSuffix_tracks h hs₃ (.paren e)).mono fun e' marks hmarks => ?_
      rw [← hmarks, Expr.marks]
      simp
    · next ht =>
      refine tracks_advance_bind ht (by simp) fun s₁ hhash => ?_
      have hs₁ := hhash.closed hs
      -- Parameters open no levels, and are read alike on both sides.
      refine tracks_bind_same Parameter.allSlots
        (fun ps s₂ hok => (parameters_sound s₁ ps s₂ hs₁ hok).1) fun ps s₂ hparameters => ?_
      have hs₂ := hparameters.closed hs₁
      refine tracks_bind (h.block s₂ hs₂) ?_
      rintro body _ s₃ rfl hpasses
      have hs₃ := hpasses.closed hs₂
      refine (callSuffix_tracks h hs₃ (.lambda ps body)).mono fun e marks hmarks => ?_
      rw [← hmarks, Expr.marks]
      simp [Stmt.blockMarks]
    · next ht =>
      refine tracks_advance_bind ht (by simp) fun s₁ hopen => ?_
      have hs₁ := hopen.closed hs
      refine tracks_bind (h.expression s₁ hs₁) ?_
      -- The arguments behind the bracket are there in any case.
      rintro callee _ s₂ rfl hpasses
      refine tracks_expect_bind (by simp) fun s₃ hclose => ?_
      refine tracks_bind (arguments_tracks h (hclose.closed (hpasses.closed hs₁))) ?_
      rintro es _ s₄ rfl -
      refine tracks_pure ?_
      simp [Expr.marks, Expr.argumentMarks]
    · exact tracks_of_ne_ok fun _ _ => fail_ne_ok _

/-- An operand with signs in front passes its marks up to the first one that opens a level too
deep. -/
theorem unary_tracks (hs : s.Closed) : Tracks max (unary inner) (unary inner')
    (fun e marks => marks = e.marks d) s := by
  unfold unary
  refine tracks_current_bind ?_
  cases hop : unaryOp? s.current.token with
  | some op =>
    refine tracks_advance_bind (unaryOp?_eq_some hop) (by simp) fun s₁ hread => ?_
    refine tracks_bind (primary_tracks h (hread.closed hs)) ?_
    rintro operand _ s₂ rfl -
    refine tracks_pure ?_
    rw [Expr.marks, List.append_nil]
  | none => exact primary_tracks h hs

/-- An operand with types behind passes its marks up to the first one that opens a level too
deep. -/
theorem cast_tracks (hs : s.Closed) : Tracks max (cast inner) (cast inner')
    (fun e marks => marks = e.marks d) s := by
  unfold cast
  refine tracks_bind (unary_tracks h hs) ?_
  rintro operand _ s₁ rfl -
  refine tracks_current_bind (tracks_ite (fun harrow => ?_) fun _ => ?_)
  · refine tracks_advance_bind harrow (by simp) fun s₂ _ => tracks_current_bind ?_
    split
    · next target ht =>
      refine tracks_advance_bind ht (by simp) fun s₃ _ => tracks_pure ?_
      rw [Expr.marks]
    · exact tracks_of_ne_ok fun _ _ => fail_ne_ok _
  · exact tracks_pure (List.append_nil _)

omit h in
/-- The operators of a level group to the left, and so do their marks. -/
theorem chain_tracks {operand operand' : Parse Expr} (hoperand : ∀ s, s.Closed →
      Tracks max operand operand' (fun e marks => marks = e.marks d) s)
    (level : Nat) (rs : List Lexed) : ∀ (left : Expr) (s : State), s.Closed →
      Tracks max (chain level operand rs left) (chain level operand' rs left)
        (fun e marks => left.marks d ++ marks = e.marks d) s := by
  induction rs with
  | nil => exact fun left s _ => tracks_pure (List.append_nil _)
  | cons r rs ih =>
    intro left s hs
    unfold chain
    refine tracks_current_bind ?_
    cases hop : binaryOp? level s.current.token with
    | none => exact tracks_pure (List.append_nil _)
    -- The operator joins what is in front of it with the operand behind.
    | some op =>
      refine tracks_advance_bind (binaryOp?_eq_some hop).1 (by simp) fun s₁ hread => ?_
      have hs₁ := hread.closed hs
      refine tracks_bind (hoperand s₁ hs₁) ?_
      rintro right _ s₂ rfl hpasses
      refine (ih (.binary op left right) s₂ (hpasses.closed hs₁)).mono fun e marks hmarks => ?_
      rw [← hmarks, Expr.marks]
      simp

omit h in
/-- Rows of operators of all levels, one in the other, pass their marks up to the first one that
opens a level too deep. -/
theorem ladder_tracks {operand operand' : Parse Expr} (hoperand : ∀ s, s.Closed →
      Tracks max operand operand' (fun e marks => marks = e.marks d) s) (levels : List Nat) :
    ∀ s, s.Closed → Tracks max (ladder operand levels) (ladder operand' levels)
      (fun e marks => marks = e.marks d) s := by
  induction levels with
  | nil => exact hoperand
  | cons level tighter ih =>
    intro s hs
    unfold ladder
    refine tracks_bind (ih s hs) ?_
    rintro left _ s₁ rfl hpasses
    refine tracks_rounds_bind ?_
    exact (chain_tracks ih level _ left s₁ (hpasses.closed hs)).mono fun _ _ hmarks => hmarks

/-- Behind a first operand that is a name, the value of an assignment passes its marks. -/
theorem assignment_tracks (hs : s.Closed) (target : String) :
    Tracks max (assignment inner target) (assignment inner' target)
      (fun e marks =>
        .slot .dollar :: .name target :: .symbol .assign :: marks = e.marks d) s := by
  unfold assignment
  refine tracks_bind (h.expression s hs) ?_
  rintro value _ s₁ rfl -
  refine tracks_pure ?_
  rw [List.append_nil, Expr.marks]

/-- An expression passes its marks up to the first one that opens a level too deep. -/
theorem expressionBody_tracks (hs : s.Closed) :
    Tracks max (expressionBody inner) (expressionBody inner')
      (fun e marks => marks = e.marks d) s := by
  unfold expressionBody
  refine tracks_current_bind (tracks_ite (fun hdollar => ?_) fun _ => ?_)
  · -- A dollar sign is read alike on both sides.
    have hpasses : ∀ (u : Unit) s₁, advance s = .ok u s₁ → Passes [.dollar] s s₁ := fun _ s₁ hok =>
      Passes.dollar_iff.mpr
        (.inr ⟨s₁, reads_of_advance hok hdollar (by simp), Passes.nil_iff.mpr rfl⟩)
    refine tracks_bind_same (fun _ => [.dollar]) hpasses fun _ s₁ hread => ?_
    refine tracks_identifier_bind fun target s₂ hname => ?_
    refine tracks_expect_bind (by simp) fun s₃ hassign => ?_
    exact assignment_tracks h (hassign.closed (hname.closed (hread.closed hs))) target
  · -- Without a dollar sign, the place for it is empty in an assignment.
    refine tracks_blank (tracks_bind (ladder_tracks (fun s hs => cast_tracks h hs) _ s hs) ?_)
    rintro left _ s₁ rfl hpasses
    refine tracks_current_bind (tracks_ite (fun hassign => ?_) fun _ => ?_)
    · split
      · next target =>
        refine tracks_advance_bind hassign (by simp) fun s₂ hread => ?_
        have hs₂ := hread.closed (hpasses.closed hs)
        refine (assignment_tracks h hs₂ target).mono fun e marks hmarks => .inr ?_
        rw [← hmarks, Expr.marks]
        rfl
      · -- Only a name can be assigned to.
        exact tracks_of_ne_ok fun _ _ => fail_ne_ok _
    · exact tracks_pure (.inl (List.append_nil _))

/-! ## Statements -/

/-- A condition, which opens a level behind its parenthesis, passes its marks up to the first one
that opens a level too deep. -/
theorem condition_tracks (hs : s.Closed) (k : Keyword) :
    Tracks max (condition inner k) (condition inner' k) (fun e marks => marks =
      .symbol .leftParen :: .opens (d + 1) :: (e.marks (d + 1) ++ [.symbol .rightParen])) s := by
  unfold condition
  refine tracks_expect_bind (by simp) fun s₁ hopen => ?_
  refine tracks_current_bind (tracks_ite (fun _ => ?_) fun _ => ?_)
  · refine tracks_bind (h.expression s₁ (hopen.closed hs)) ?_
    rintro e _ s₂ rfl -
    exact tracks_expect_bind (by simp) fun s₃ _ => tracks_pure rfl
  · exact tracks_of_ne_ok fun _ _ => fail_ne_ok _

/-- A statement passes its marks up to the first one that opens a level too deep. -/
theorem statement_tracks (hs : s.Closed) : Tracks max (statement inner) (statement inner')
    (fun st marks => marks = st.marks d) s := by
  unfold statement
  refine tracks_current_bind ?_
  split
  · -- The mark of what can be assigned to opens no level, whether it is there or not.
    next ht =>
    refine tracks_advance_bind ht (by simp) fun s₁ hlet => ?_
    refine tracks_bind_same (fun mutable => if mutable then [.keyword .mutKey] else [])
      (fun _ _ hok => passes_mutability hok) fun mutable s₂ hmut => ?_
    refine tracks_identifier_bind fun name s₃ hname => ?_
    refine tracks_expect_bind (by simp) fun s₄ hassign => ?_
    have hs₄ := hassign.closed (hname.closed (hmut.closed (hlet.closed hs)))
    refine tracks_bind (h.expression s₄ hs₄) ?_
    rintro value _ s₅ rfl -
    refine tracks_expect_bind (by simp) fun s₆ _ => tracks_pure ?_
    rw [Stmt.marks]
    rfl
  · -- Parameters open no levels, and are read alike on both sides.
    next ht =>
    refine tracks_advance_bind ht (by simp) fun s₁ hfn => ?_
    refine tracks_identifier_bind fun name s₂ hname => ?_
    have hs₂ := hname.closed (hfn.closed hs)
    refine tracks_bind_same Parameter.allSlots
      (fun ps s₃ hok => (parameters_sound s₂ ps s₃ hs₂ hok).1) fun ps s₃ hparameters => ?_
    refine tracks_bind (h.block s₃ (hparameters.closed hs₂)) ?_
    rintro body _ s₄ rfl -
    refine tracks_pure ?_
    rw [List.append_nil, Stmt.marks]
    rfl
  · -- The condition opens its level, and the block another one beside it.
    next ht =>
    refine tracks_advance_bind ht (by simp) fun s₁ hwhile => ?_
    have hs₁ := hwhile.closed hs
    refine tracks_bind (condition_tracks h hs₁ .whileKey) ?_
    rintro test _ s₂ rfl hpasses
    refine tracks_bind (h.block s₂ (hpasses.closed hs₁)) ?_
    rintro body _ s₃ rfl -
    refine tracks_pure ?_
    simp [Stmt.marks, Stmt.blockMarks]
  · -- The conditional opens its level in front of its keyword.
    next ht =>
    refine tracks_bind (h.conditional s hs ht) ?_
    rintro c _ s₁ rfl -
    refine tracks_pure ?_
    rw [List.append_nil, Stmt.marks]
  · next ht =>
    refine tracks_advance_bind ht (by simp) fun s₁ hreturn => ?_
    refine tracks_current_bind (tracks_ite (fun _ => ?_) fun _ => ?_)
    · -- A return without a value opens no level.
      refine tracks_expect_bind (by simp) fun s₂ _ => tracks_pure ?_
      rw [Stmt.marks]
    · rw [map_eq_pure_bind, map_eq_pure_bind, bind_assoc, bind_assoc]
      refine tracks_bind (h.expression s₁ (hreturn.closed hs)) ?_
      rintro value _ s₂ rfl -
      refine tracks_expect_bind (by simp) fun s₃ _ => tracks_pure ?_
      rw [Stmt.marks]
      rfl
  · next ht =>
    refine tracks_advance_bind ht (by simp) fun s₁ _ => tracks_pure ?_
    rw [Stmt.marks]
  · -- What is no other statement is an expression.
    refine tracks_bind (h.expression s hs) ?_
    rintro e _ s₁ rfl -
    refine tracks_expect_bind (by simp) fun s₂ _ => tracks_pure ?_
    rw [Stmt.marks]
    rfl

/-- The statements of a block pass their marks up to the first one that opens a level too deep. -/
theorem blockStatements_tracks (rs : List Lexed) : ∀ s : State, s.Closed →
    Tracks max (blockStatements inner rs) (blockStatements inner' rs)
      (fun ss marks => marks = Stmt.listMarks d ss ++ [.symbol .rightCurly]) s := by
  induction rs with
  | nil => exact fun s _ => tracks_of_ne_ok fun _ _ => unexpected_ne_ok _
  | cons r rs ih =>
    intro s hs
    unfold blockStatements
    refine tracks_current_bind ?_
    split
    · next ht =>
      refine tracks_advance_bind ht (by simp) fun s₁ _ => tracks_pure ?_
      rw [Stmt.listMarks, List.nil_append]
    · exact tracks_of_ne_ok fun _ _ => unexpected_ne_ok _
    · -- A statement passes its marks, and then the others pass theirs.
      refine tracks_bind (statement_tracks h hs) ?_
      rintro st _ s₁ rfl hpasses
      refine tracks_bind (ih s₁ (hpasses.closed hs)) ?_
      rintro ss _ s₂ rfl -
      refine tracks_pure ?_
      simp [Stmt.listMarks]

/-- A block within its level passes its marks up to the first one that opens a level too deep. -/
theorem blockBody_tracks (hs : s.Closed) : Tracks max (blockBody inner) (blockBody inner')
    (fun ss marks => marks = Stmt.blockMarks d ss) s := by
  unfold blockBody
  refine tracks_expect_bind (by simp) fun s₁ hopen => tracks_rounds_bind ?_
  refine (blockStatements_tracks h _ s₁ (hopen.closed hs)).mono ?_
  rintro ss _ rfl
  rfl

/-- What follows a conditional passes its marks up to the first one that opens a level too deep. -/
theorem alternative_tracks (hs : s.Closed) : Tracks max (alternative inner) (alternative inner')
    (fun a marks => marks = a.marks d) s := by
  unfold alternative
  refine tracks_current_bind (tracks_ite (fun helse => ?_) fun _ => ?_)
  · refine tracks_advance_bind helse (by simp) fun s₁ hread => tracks_current_bind ?_
    have hs₁ := hread.closed hs
    split
    · -- A further conditional opens a level.
      next ht =>
      refine tracks_bind (h.conditional s₁ hs₁ ht) ?_
      rintro c _ s₂ rfl -
      refine tracks_pure ?_
      rw [List.append_nil, Alternative.marks]
    · -- A block opens a level.
      refine tracks_bind (h.block s₁ hs₁) ?_
      rintro body _ s₂ rfl -
      refine tracks_pure ?_
      rw [List.append_nil, Alternative.marks]
      rfl
    · exact tracks_of_ne_ok fun _ _ => unexpected_ne_ok _
  · refine tracks_pure ?_
    rw [Alternative.marks]

/-- A conditional within its level passes its marks up to the first one that opens a level too
deep. -/
theorem conditionalBody_tracks (hs : s.Closed) (ht : s.current.token = .keyword .ifKey) :
    Tracks max (conditionalBody inner) (conditionalBody inner')
      (fun c marks => marks = c.marks d) s := by
  unfold conditionalBody
  refine tracks_advance_bind ht (by simp) fun s₁ hif => ?_
  have hs₁ := hif.closed hs
  refine tracks_bind (condition_tracks h hs₁ .ifKey) ?_
  rintro test _ s₂ rfl htest
  have hs₂ := htest.closed hs₁
  refine tracks_bind (h.block s₂ hs₂) ?_
  rintro body _ s₃ rfl hbody
  refine tracks_bind (alternative_tracks h (hbody.closed hs₂)) ?_
  rintro otherwise _ s₄ rfl -
  refine tracks_pure ?_
  simp [Conditional.marks, Stmt.blockMarks]

/-- Statements up to the end of the source open no level of their own. -/
theorem topStatements_tracks (rs : List Lexed) : ∀ s : State, s.Closed →
    Tracks max (topStatements inner rs) (topStatements inner' rs)
      (fun ss marks => marks = Stmt.listMarks d ss) s := by
  induction rs with
  | nil =>
    intro s _
    refine tracks_pure ?_
    rw [Stmt.listMarks]
  | cons r rs ih =>
    intro s hs
    unfold topStatements
    refine tracks_current_bind (tracks_ite (fun _ => ?_) fun _ => ?_)
    · refine tracks_pure ?_
      rw [Stmt.listMarks]
    · refine tracks_bind (statement_tracks h hs) ?_
      rintro st _ s₁ rfl hpasses
      refine tracks_bind (ih s₁ (hpasses.closed hs)) ?_
      rintro ss _ s₂ rfl -
      refine tracks_pure ?_
      rw [List.append_nil, Stmt.listMarks]

end Level

/-! ## Levels and programs -/

/-- A level that is too deep is refused at once, and what would have been parsed is behind it. -/
theorem tracks_refused {places : α → List Slot} {marks : α → List Mark} {p' : Parse α}
    (hpasses : ∀ a s', p' s = .ok a s' → Passes (places a) s s')
    (hslots : ∀ a, Mark.slots (marks a) = places a) :
    Tracks max (fail (.nestingTooDeep max)) p'
      (fun a ms => ms = .opens (max + 1) :: marks a) s := by
  intro a s' hok
  refine ⟨_, rfl, .beyond [] (marks a) rfl (Nat.zero_le max) (Nat.lt_succ_self max)
    (Passes.nil_iff.mpr rfl) ?_ rfl⟩
  rw [hslots]
  exact hpasses a s' hok

/-- A level that may be opened is opened in front of what is parsed. -/
theorem Tracks.opens {p p' : Parse α} {marks : α → List Mark} (hd : d + 1 ≤ max)
    (h : Tracks max p p' (fun a ms => ms = marks a) s) :
    Tracks max p p' (fun a ms => ms = .opens (d + 1) :: marks a) s := by
  intro a s' hok
  obtain ⟨_, rfl, hmeets⟩ := h a s' hok
  exact ⟨_, rfl, hmeets.opens hd⟩

/-- Within `d` levels, the parsers that may open `n` further ones of `max` in all do the same as
those that may open more, up to a level that is too deep. -/
theorem levels_tracks (max max' : Nat) {n n' d : Nat} (hle : n ≤ n') (hd : d + n = max) :
    Nested.Tracks max d ⟨expression max n, block max n, conditional max n⟩
      ⟨expression max' n', block max' n', conditional max' n'⟩ := by
  induction n generalizing n' d with
  | zero =>
    -- The next level would be too deep. What is behind it is known from what the second parsers
    -- pass, since the first ones do not get there.
    obtain rfl : d = max := hd
    have hsound := levels_sound max' n'
    exact ⟨
      fun s hs => tracks_refused (fun e s' hok => (hsound.expression s e s' hs hok).1)
        fun e => e.slots_marks _,
      fun s hs => tracks_refused (fun ss s' hok => (hsound.block s ss s' hs hok).1)
        fun ss => Stmt.slots_blockMarks _ ss,
      fun s hs ht => tracks_refused (fun c s' hok => (hsound.conditional s c s' hs ht hok).1)
        fun c => c.slots_marks _⟩
  | succ n ih =>
    obtain ⟨n', rfl⟩ : ∃ m, n' = m + 1 := ⟨n' - 1, by omega⟩
    have hinner : Nested.Tracks max (d + 1) _ _ := ih (Nat.le_of_succ_le_succ hle) (by omega)
    have hopens : d + 1 ≤ max := by omega
    exact ⟨fun s hs => (expressionBody_tracks hinner hs).opens hopens,
      fun s hs => (blockBody_tracks hinner hs).opens hopens,
      fun s hs ht => (conditionalBody_tracks hinner hs ht).opens hopens⟩

/-- A parser of programs that may open fewer levels does the same as one that may open more, up to
the first level that is too deep. -/
theorem program_tracks {max max' : Nat} (hle : max ≤ max') (hs : s.Closed) :
    Tracks max (program max) (program max') (fun p marks => marks = p.marks) s := by
  unfold program
  have hlevels := levels_tracks max max' hle (Nat.zero_add max)
  refine tracks_rounds_bind (tracks_bind (topStatements_tracks hlevels _ s hs) ?_)
  rintro ss _ s₁ rfl -
  exact tracks_pure (List.append_nil _)

end Brisk.Parse
