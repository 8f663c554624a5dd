import Brisk.Command.Run
import Brisk.Proofs.Number.Literal
import Brisk.Proofs.Parse.Program
import Brisk.Proofs.Tree.Outline

/-!
# The dump of a program loses nothing

The outline of a tree determines the tree. The first word of a label says which kind of node it is
(`Outline.kind?`), the rest of the label holds what the node has besides its children, and what is
missing among the children is seen from their number. Names are words, so that a name cannot be
taken for one that is marked as assignable, and literals of different types have different
characters (`Literal.text_injective`).

Programs that are parsed consist of such names, so they are the same if they are shown alike
(`Program.dump_injective`, `Program.dump_faithful`).
-/

namespace Brisk

/-! ## Literals -/

namespace Literal

/-- The type of a literal. -/
def type : Literal → TypeName
  | int _ => .int
  | float _ => .float
  | str _ => .str
  | bool _ => .bool

/-- The type of the literal that is written as some characters. -/
def typeOf (cs : List Char) : TypeName :=
  if '"' ∈ cs then .str
  else if 't' ∈ cs ∨ 's' ∈ cs then .bool
  else if cs.all (fun c => c == '-' || c.isDigit) then .int
  else .float

/-- The type of a literal can be read off its text. -/
theorem typeOf_text (l : Literal) : typeOf l.text.toList = l.type := by
  unfold typeOf
  -- Quotation marks stand in strings only, and `t` and `s` otherwise in truth values only.
  cases l with
  | int n =>
    -- Numerals of integers have digits only, and no mark of any other type.
    have hchars : ∀ c ∈ (Literal.int n).text.toList, c = '-' ∨ c.isDigit = true :=
      fun c hc => Integer.mem_toString hc
    have hall : (Literal.int n).text.toList.all (fun c => c == '-' || c.isDigit) = true := by
      simpa using hchars
    rw [if_neg fun hc => absurd (hchars _ hc) (by decide), if_neg, if_pos hall]
    · rfl
    · rintro (hc | hc)
      · exact absurd (hchars _ hc) (by decide)
      · exact absurd (hchars _ hc) (by decide)
  | float x =>
    -- Numerals of floats have a character beside digits and a sign.
    have hchars : ∀ c ∈ (Literal.float x).text.toList, Decimal.LiteralChar c :=
      fun c hc => Decimal.mem_literal hc
    obtain ⟨c, hc, hsign, hdigit⟩ := Decimal.exists_mark_literal x
    rw [if_neg fun hc => absurd (hchars _ hc) (by decide), if_neg, if_neg]
    · rfl
    · intro hall
      have hinteger := List.all_eq_true.mp hall c hc
      simp [hsign, hdigit] at hinteger
    · rintro (hc | hc)
      · exact absurd (hchars _ hc) (by decide)
      · exact absurd (hchars _ hc) (by decide)
  -- Strings are written between quotation marks.
  | str s =>
    have hmark : '"' ∈ (Literal.str s).text.toList :=
      List.mem_of_mem_head? (Text.head?_quote s)
    rw [if_pos hmark]
    rfl
  | bool b => cases b <;> decide

/-- Different literals are shown differently. -/
theorem text_injective {l l' : Literal} (h : l.text = l'.text) : l = l' := by
  have htype : l.type = l'.type := by rw [← typeOf_text, ← typeOf_text, h]
  -- The type is told by the text, so only literals of one type are compared.
  cases l with
  | int n =>
    -- An integer is read back from its text.
    cases l' with
    | int n' =>
      have hread := Integer.signed?_toString n.toInt
      rw [show toString n.toInt = toString n'.toInt from h, Integer.signed?_toString] at hread
      rw [Int32.toInt_inj.mp (Option.some.inj hread)]
    | float | str | bool => cases htype
  | float x =>
    cases l' with
    | float y => rw [Decimal.literal_injective h]
    | int | str | bool => cases htype
  | str s =>
    cases l' with
    | str s' => rw [Text.quote_injective h]
    | int | float | bool => cases htype
  | bool b =>
    cases l' with
    | bool b' => revert h; cases b <;> cases b' <;> decide
    | int | float | str => cases htype

/-- Literals stand in one line. -/
theorem lineFeed_not_mem_text (l : Literal) : '\n' ∉ l.text.toList := by
  cases l with
  | int n => exact fun hc => absurd (Integer.mem_toString hc) (by decide)
  | float x => exact fun hc => absurd (Decimal.mem_literal hc) (by decide)
  | str s => exact Text.lineFeed_not_mem_quote s
  | bool b => cases b <;> decide

end Literal

/-! ## Names -/

/-- Nothing is asked of symbols. -/
@[simp]
theorem Token.lexical_symbol (s : Symbol) : (Token.symbol s).Lexical ↔ True := Iff.rfl

/-- Nothing is asked of keywords. -/
@[simp]
theorem Token.lexical_keyword (k : Keyword) : (Token.keyword k).Lexical ↔ True := Iff.rfl

/-- Whether all tokens in the writing of a tree can be written. -/
def Slot.AllLexical (slots : List Slot) : Prop := ∀ t ∈ Slot.tokens slots, t.Lexical

namespace Slot

/-- No slots have no tokens of which something is asked. -/
@[simp]
theorem allLexical_nil : AllLexical [] ↔ True := by simp [AllLexical]

/-- Of slots behind a token, the token and the others are asked. -/
@[simp]
theorem allLexical_token (t : Token) (slots : List Slot) :
    AllLexical (.token t :: slots) ↔ t.Lexical ∧ AllLexical slots := by simp [AllLexical]

/-- A slot for a dollar sign has no token of which something is asked. -/
@[simp]
theorem allLexical_dollar (slots : List Slot) :
    AllLexical (.dollar :: slots) ↔ AllLexical slots := by simp [AllLexical]

/-- Of slots and further ones, both are asked. -/
@[simp]
theorem allLexical_append (slots slots' : List Slot) :
    AllLexical (slots ++ slots') ↔ AllLexical slots ∧ AllLexical slots' := by
  simp only [AllLexical, tokens_append, List.forall_mem_append]

/-- Commas between arguments aside, all of them are made of such tokens. -/
theorem allLexical_arguments (e : Expr) (es : List Expr) :
    AllLexical (Expr.listSlots (e :: es)) ↔
      AllLexical e.slots ∧ AllLexical (Expr.listSlots es) := by
  cases es with
  | nil => simp [Expr.listSlots]
  | cons e' es => simp [Expr.listSlots]

/-- Of the slots of parameters, it is the names that are asked. -/
theorem allLexical_parameterList (ps : List Parameter) :
    AllLexical (Parameter.listSlots ps) ↔ ∀ p ∈ ps, (Token.identifier p.name).Lexical := by
  have hone : ∀ p : Parameter, AllLexical p.slots ↔ (Token.identifier p.name).Lexical := by
    intro p
    unfold Parameter.slots
    split <;> simp
  induction ps with
  | nil => simp [Parameter.listSlots]
  | cons p ps ih =>
    cases ps with
    | nil => simp [Parameter.listSlots, hone]
    | cons p' ps =>
      rw [List.forall_mem_cons, ← hone, ← propext ih]
      simp [Parameter.listSlots]

/-- Of the slots of parameters in parentheses, it is the names that are asked. -/
theorem allLexical_parameters (ps : List Parameter) :
    AllLexical (Parameter.allSlots ps) ↔ ∀ p ∈ ps, (Token.identifier p.name).Lexical := by
  rw [← allLexical_parameterList]
  simp [Parameter.allSlots]

end Slot

/-- Names hold neither blanks nor line feeds. -/
theorem Token.Lexical.not_mem {name : String} (h : (Token.identifier name).Lexical) :
    ' ' ∉ name.toList ∧ '\n' ∉ name.toList := by
  obtain ⟨⟨c, cs, hname, hstart, hrest⟩, -⟩ := h
  rw [hname]
  constructor
  · intro hmem
    rcases List.mem_cons.mp hmem with rfl | hmem
    · exact absurd hstart (by decide)
    · exact absurd (hrest ' ' hmem) (by decide)
  · intro hmem
    rcases List.mem_cons.mp hmem with rfl | hmem
    · exact absurd hstart (by decide)
    · exact absurd (hrest '\n' hmem) (by decide)

section DeclaredName

variable {name name' : String} {mutable mutable' : Bool}

/-- The name of a declaration is written behind the mark of a mutable one. -/
theorem toList_declaredName : (declaredName name mutable).toList =
    (if mutable then ['m', 'u', 't', ' '] else []) ++ name.toList := by
  unfold declaredName
  cases mutable with
  | true => exact String.toList_append
  | false => rfl

/-- It stands on one line. -/
theorem lineFeed_not_mem_declaredName (h : (Token.identifier name).Lexical) :
    '\n' ∉ (declaredName name mutable).toList := by
  rw [toList_declaredName]
  cases mutable <;> simp [h.not_mem.2]

/-- A name that is marked is not taken for one that is not. -/
theorem declaredName_injective (h : (Token.identifier name).Lexical)
    (h' : (Token.identifier name').Lexical)
    (heq : declaredName name mutable = declaredName name' mutable') :
    name = name' ∧ mutable = mutable' := by
  -- A name for which the word in front stood would have a blank.
  have hblank : ∀ {n n' : String}, ['m', 'u', 't', ' '] ++ n.toList = n'.toList →
      ' ' ∈ n'.toList := by
    intro n n' hlist
    rw [← hlist]
    exact List.mem_append_left _ (by decide)
  have hlist := congrArg String.toList heq
  rw [toList_declaredName, toList_declaredName] at hlist
  cases mutable with
  | true =>
    cases mutable' with
    | true => exact ⟨String.toList_inj.mp (List.append_cancel_left hlist), rfl⟩
    | false => exact absurd (hblank hlist) h'.not_mem.1
  | false =>
    cases mutable' with
    | true => exact absurd (hblank hlist.symm) h.not_mem.1
    | false => exact ⟨String.toList_inj.mp hlist, rfl⟩

end DeclaredName

/-! ## Kinds of nodes -/

namespace Outline

/-- The kinds of nodes that are told apart by the first words of their labels. -/
inductive Kind where
  | assign
  | binary
  | cast
  | unary
  | call
  | lambda
  | name
  | paren
  | literal
  | function
  | declare
  | loop
  | conditional
  | leave
  | expression
  | empty
  | block
  deriving DecidableEq

/-- The words that labels start with. Operators that share a level share their word, and traced
calls have a word of their own. -/
def words : List (String × Kind) :=
  [("AssignmentExpression", .assign), ("OrExpression", .binary), ("AndExpression", .binary),
  ("ComparisonExpression", .binary), ("RelationalExpression", .binary),
  ("AdditiveExpression", .binary), ("MultiplicativeExpression", .binary),
  ("CompositiveExpression", .binary), ("CastExpression", .cast), ("PrefixExpression", .unary),
  ("CallExpression", .call), ("DebugExpression", .call), ("LambdaExpression", .lambda),
  ("Identifier", .name), ("ParentExpression", .paren), ("Literal", .literal),
  ("FunctionDeclaration", .function), ("VariableDeclaration", .declare),
  ("WhileLoopStatement", .loop), ("IfStatement", .conditional), ("ReturnStatement", .leave),
  ("ExpressionStatement", .expression), ("NullStatement", .empty), ("Block", .block)]

/-- The kind of the root of an outline, by the first word of its label. -/
def kind? : Outline → Option Kind
  | node label _ => words.lookup (String.ofList (label.toList.takeWhile (· ≠ ' ')))

/-- What follows the first blank does not matter for the kind. -/
theorem kind?_append {title : String} (h : ' ' ∈ title.toList) (text : String)
    (children : List Outline) : kind? (.node (title ++ text) children) = kind? (.leaf title) := by
  -- The blank stops the first word within the title.
  have hshort : (title.toList.takeWhile (fun c => decide (c ≠ ' '))).length ≠
      title.toList.length := by
    intro hlength
    have hall := (List.takeWhile_prefix _).eq_of_length hlength
    rw [← hall] at h
    exact absurd (List.all_eq_true.mp List.all_takeWhile _ h) (by decide)
  simp only [leaf, kind?]
  rw [String.toList_append, List.takeWhile_append, if_neg hshort]

end Outline

/-- The kind of an expression. -/
def Expr.kind : Expr → Outline.Kind
  | .assign _ _ => .assign
  | .binary _ _ _ => .binary
  | .cast _ _ => .cast
  | .unary _ _ => .unary
  | .call _ _ _ => .call
  | .lambda _ _ => .lambda
  | .name _ => .name
  | .paren _ => .paren
  | .literal _ => .literal

/-- The outline of an expression says of what kind it is. -/
theorem Expr.kind?_outline (e : Expr) : e.outline.kind? = some e.kind := by
  cases e with
  | assign => exact Outline.kind?_append (by decide) _ _
  | name => exact Outline.kind?_append (by decide) _ _
  | literal => exact Outline.kind?_append (by decide) _ _
  | binary op => cases op <;> rfl
  | unary op => cases op <;> rfl
  | call traced => cases traced <;> rfl
  | cast | lambda | paren => rfl

/-- The kind of a statement. -/
def Stmt.kind : Stmt → Outline.Kind
  | .function _ _ _ => .function
  | .declare _ _ _ => .declare
  | .loop _ _ => .loop
  | .conditional _ => .conditional
  | .leave _ => .leave
  | .expression _ => .expression
  | .empty => .empty

/-- The outline of a statement says of what kind it is. -/
theorem Stmt.kind?_outline (s : Stmt) : s.outline.kind? = some s.kind := by
  cases s with
  | function => exact Outline.kind?_append (by decide) _ _
  | declare => exact Outline.kind?_append (by decide) _ _
  | conditional c => cases c; rfl
  | leave value => cases value <;> rfl
  | loop | expression | empty => rfl

/-- Expressions of the same kind. -/
inductive Expr.Alike : Expr → Expr → Prop where
  | assign {target target' value value'} : Alike (.assign target value) (.assign target' value')
  | binary {op op' left left' right right'} :
      Alike (.binary op left right) (.binary op' left' right')
  | cast {operand operand' target target'} :
      Alike (.cast operand target) (.cast operand' target')
  | unary {op op' operand operand'} : Alike (.unary op operand) (.unary op' operand')
  | call {traced traced' callee callee' arguments arguments'} :
      Alike (.call traced callee arguments) (.call traced' callee' arguments')
  | lambda {parameters parameters' body body'} :
      Alike (.lambda parameters body) (.lambda parameters' body')
  | name {name name'} : Alike (.name name) (.name name')
  | paren {inner inner'} : Alike (.paren inner) (.paren inner')
  | literal {value value'} : Alike (.literal value) (.literal value')

/-- Statements of the same kind. -/
inductive Stmt.Alike : Stmt → Stmt → Prop where
  | function {name name' parameters parameters' body body'} :
      Alike (.function name parameters body) (.function name' parameters' body')
  | declare {name name' mutable mutable' value value'} :
      Alike (.declare name mutable value) (.declare name' mutable' value')
  | loop {condition condition' body body'} : Alike (.loop condition body) (.loop condition' body')
  | conditional {c c'} : Alike (.conditional c) (.conditional c')
  | leave {value value'} : Alike (.leave value) (.leave value')
  | expression {e e'} : Alike (.expression e) (.expression e')
  | empty : Alike .empty .empty

/-- Statements with the same outline are of the same kind. -/
theorem Stmt.alike_of_outline {s s' : Stmt} (h : s.outline = s'.outline) : Alike s s' := by
  have hkind : s.kind = s'.kind := by
    rw [← Option.some_inj, ← kind?_outline, ← kind?_outline, h]
  cases s <;> cases s' <;> first | constructor | cases hkind

/-- Expressions with the same outline are of the same kind. -/
theorem Expr.alike_of_outline {e e' : Expr} (h : e.outline = e'.outline) : Alike e e' := by
  have hkind : e.kind = e'.kind := by
    rw [← Option.some_inj, ← kind?_outline, ← kind?_outline, h]
  cases e <;> cases e' <;> first | constructor | cases hkind

/-! ## Labels -/

namespace Outline

/-- A title with something behind it on the same line is a label. -/
theorem isLabel_append {title text : String} (h : IsLabel title) (hne : title ≠ "")
    (htext : '\n' ∉ text.toList) : IsLabel (title ++ text) := by
  obtain ⟨c, cs, htitle⟩ := List.exists_cons_of_ne_nil (String.toList_eq_nil_iff.not.mpr hne)
  obtain ⟨hline, hhead⟩ := h
  unfold IsLabel
  rw [String.toList_append, List.mem_append, not_or]
  refine ⟨⟨hline, htext⟩, ?_⟩
  rw [htitle] at hhead ⊢
  exact hhead

/-- The label of a node that shows a text behind its title. -/
theorem Legible.titled {title text : String} {children : List Outline} (h : IsLabel title)
    (hne : title ≠ "") (htext : '\n' ∉ text.toList) (hchildren : ∀ o ∈ children, o.Legible) :
    (Outline.node (title ++ text) children).Legible :=
  .node (isLabel_append h hne htext) hchildren

end Outline

/-- The labels of operators are labels. -/
theorem BinaryOp.isLabel_label (op : BinaryOp) : Outline.IsLabel op.label := by
  cases op <;> decide

/-- Parameters have legible outlines, one line for each of them. -/
theorem Parameter.legible_outline {ps : List Parameter}
    (h : Slot.AllLexical (Parameter.allSlots ps)) : (Parameter.outline ps).Legible := by
  refine .node (by decide) fun o ho => ?_
  obtain ⟨p, hp, rfl⟩ := List.mem_map.mp ho
  have hname := (Slot.allLexical_parameters ps).mp h p hp
  exact .titled (by decide) (by decide) (lineFeed_not_mem_declaredName hname) (by simp)

mutual

/-- Expressions have legible outlines. -/
theorem Expr.legible_outline : ∀ {e : Expr}, Slot.AllLexical e.slots → e.outline.Legible
  | .assign target value, h => by
    -- The name of the target is all that the label has of the source.
    obtain ⟨htarget, hvalue⟩ :
        (Token.identifier target).Lexical ∧ Slot.AllLexical value.slots := by
      simpa [Expr.slots] using h
    rw [Expr.outline]
    exact .titled (by decide) (by decide) htarget.not_mem.2
      (List.forall_mem_singleton.mpr (Expr.legible_outline hvalue))
  | .binary op left right, h => by
    obtain ⟨hleft, hright⟩ : Slot.AllLexical left.slots ∧ Slot.AllLexical right.slots := by
      simpa [Expr.slots] using h
    rw [Expr.outline]
    exact .node op.isLabel_label (List.forall_mem_cons.mpr ⟨Expr.legible_outline hleft,
      List.forall_mem_singleton.mpr (Expr.legible_outline hright)⟩)
  | .cast operand target, h => by
    have hoperand : Slot.AllLexical operand.slots := by simpa [Expr.slots] using h
    rw [Expr.outline]
    refine .node (by decide) (List.forall_mem_cons.mpr ⟨Expr.legible_outline hoperand,
      List.forall_mem_singleton.mpr ?_⟩)
    -- The type stands in a node of its own, and its word breaks no line.
    exact .titled (by decide) (by decide) (by cases target <;> decide) (by simp)
  | .unary op operand, h => by
    have hoperand : Slot.AllLexical operand.slots := by simpa [Expr.slots] using h
    rw [Expr.outline]
    exact .titled (by decide) (by decide) (by cases op <;> decide)
      (List.forall_mem_singleton.mpr (Expr.legible_outline hoperand))
  | .call traced callee arguments, h => by
    obtain ⟨hcallee, harguments⟩ :
        Slot.AllLexical callee.slots ∧ Slot.AllLexical (Expr.listSlots arguments) := by
      -- A traced call and a plain one differ in the word, and have the same children.
      cases traced <;> simpa [Expr.slots] using h
    rw [Expr.outline]
    exact .node (by cases traced <;> decide) (List.forall_mem_cons.mpr
      ⟨Expr.legible_outline hcallee, List.forall_mem_singleton.mpr
        (.node (by decide) (Expr.legible_outlines harguments))⟩)
  | .lambda parameters body, h => by
    obtain ⟨hparameters, hbody⟩ : Slot.AllLexical (Parameter.allSlots parameters) ∧
        Slot.AllLexical (Stmt.listSlots body) := by
      simpa [Expr.slots] using h
    rw [Expr.outline]
    exact .node (by decide) (List.forall_mem_cons.mpr ⟨Parameter.legible_outline hparameters,
      -- The parameters and the body are two nodes side by side.
      List.forall_mem_singleton.mpr (.node (by decide) (Stmt.legible_outlines hbody))⟩)
  | .name name, h => by
    have hname : (Token.identifier name).Lexical := by simpa [Expr.slots] using h
    exact .titled (by decide) (by decide) hname.not_mem.2 (by simp)
  | .paren inner, h => by
    have hinner : Slot.AllLexical inner.slots := by simpa [Expr.slots] using h
    rw [Expr.outline]
    exact .node (by decide) (List.forall_mem_singleton.mpr (Expr.legible_outline hinner))
  | .literal value, _ =>
    -- Line breaks in strings are escaped in the text of a literal.
    .titled (by decide) (by decide) value.lineFeed_not_mem_text (by simp)

/-- Arguments have legible outlines. -/
theorem Expr.legible_outlines : ∀ {es : List Expr}, Slot.AllLexical (Expr.listSlots es) →
    ∀ o ∈ Expr.outlines es, o.Legible
  | [], _ => by
    rw [Expr.outlines]
    exact List.forall_mem_nil _
  | e :: es, h => by
    rw [Slot.allLexical_arguments] at h
    rw [Expr.outlines]
    exact List.forall_mem_cons.mpr ⟨Expr.legible_outline h.1, Expr.legible_outlines h.2⟩

/-- Statements have legible outlines. -/
theorem Stmt.legible_outline : ∀ {s : Stmt}, Slot.AllLexical s.slots → s.outline.Legible
  | .function name parameters body, h => by
    obtain ⟨hname, hparameters, hbody⟩ : (Token.identifier name).Lexical ∧
        Slot.AllLexical (Parameter.allSlots parameters) ∧
          Slot.AllLexical (Stmt.listSlots body) := by
      simpa [Stmt.slots] using h
    rw [Stmt.outline]
    exact .titled (by decide) (by decide) hname.not_mem.2 (List.forall_mem_cons.mpr
      ⟨Parameter.legible_outline hparameters,
        List.forall_mem_singleton.mpr (.node (by decide) (Stmt.legible_outlines hbody))⟩)
  | .declare name mutable value, h => by
    obtain ⟨hname, hvalue⟩ :
        (Token.identifier name).Lexical ∧ Slot.AllLexical value.slots := by
      cases mutable <;> simpa [Stmt.slots] using h
    rw [Stmt.outline]
    -- The name may have a word in front of it, which breaks no line either.
    exact .titled (by decide) (by decide) (lineFeed_not_mem_declaredName hname)
      (List.forall_mem_singleton.mpr (Expr.legible_outline hvalue))
  | .loop condition body, h => by
    obtain ⟨hcondition, hbody⟩ :
        Slot.AllLexical condition.slots ∧ Slot.AllLexical (Stmt.listSlots body) := by
      simpa [Stmt.slots] using h
    rw [Stmt.outline]
    exact .node (by decide) (List.forall_mem_cons.mpr ⟨Expr.legible_outline hcondition,
      List.forall_mem_singleton.mpr (.node (by decide) (Stmt.legible_outlines hbody))⟩)
  | .conditional c, h => by
    rw [Stmt.slots] at h
    rw [Stmt.outline]
    exact Conditional.legible_outline h
  | .leave none, _ => by
    rw [Stmt.outline]
    exact .node (by decide) (List.forall_mem_nil _)
  | .leave (some value), h => by
    have hvalue : Slot.AllLexical value.slots := by simpa [Stmt.slots] using h
    rw [Stmt.outline]
    exact .node (by decide) (List.forall_mem_singleton.mpr (Expr.legible_outline hvalue))
  | .expression e, h => by
    have he : Slot.AllLexical e.slots := by simpa [Stmt.slots] using h
    rw [Stmt.outline]
    exact .node (by decide) (List.forall_mem_singleton.mpr (Expr.legible_outline he))
  | .empty, _ => by
    rw [Stmt.outline]
    exact .node (by decide) (List.forall_mem_nil _)

/-- Lists of statements have legible outlines. -/
theorem Stmt.legible_outlines : ∀ {ss : List Stmt}, Slot.AllLexical (Stmt.listSlots ss) →
    ∀ o ∈ Stmt.outlines ss, o.Legible
  | [], _ => by
    rw [Stmt.outlines]
    exact List.forall_mem_nil _
  | s :: ss, h => by
    rw [Stmt.listSlots, Slot.allLexical_append] at h
    rw [Stmt.outlines]
    exact List.forall_mem_cons.mpr ⟨Stmt.legible_outline h.1, Stmt.legible_outlines h.2⟩

/-- A conditional has a legible outline. -/
theorem Conditional.legible_outline : ∀ {c : Conditional}, Slot.AllLexical c.slots →
    c.outline.Legible
  | .mk condition body otherwise, h => by
    obtain ⟨hcondition, hbody, hotherwise⟩ : Slot.AllLexical condition.slots ∧
        Slot.AllLexical (Stmt.listSlots body) ∧ Slot.AllLexical otherwise.slots := by
      simpa [Conditional.slots] using h
    rw [Conditional.outline]
    exact .node (by decide) (List.forall_mem_cons.mpr ⟨Expr.legible_outline hcondition,
      List.forall_mem_cons.mpr ⟨.node (by decide) (Stmt.legible_outlines hbody),
        Alternative.legible_outlines hotherwise⟩⟩)

/-- What is executed otherwise has a legible outline. -/
theorem Alternative.legible_outlines : ∀ {a : Alternative}, Slot.AllLexical a.slots →
    ∀ o ∈ a.outlines, o.Legible
  | .nothing, _ => by
    rw [Alternative.outlines]
    exact List.forall_mem_nil _
  | .block body, h => by
    have hbody : Slot.AllLexical (Stmt.listSlots body) := by simpa [Alternative.slots] using h
    rw [Alternative.outlines]
    exact List.forall_mem_singleton.mpr (.node (by decide) (Stmt.legible_outlines hbody))
  | .chain c, h => by
    have hc : Slot.AllLexical c.slots := by simpa [Alternative.slots] using h
    rw [Alternative.outlines]
    exact List.forall_mem_singleton.mpr (Conditional.legible_outline hc)

end

/-! ## Trees -/

/-- Different binary operators have different labels. -/
theorem BinaryOp.label_injective {op op' : BinaryOp} (h : op.label = op'.label) : op = op' := by
  revert h
  cases op <;> cases op' <;> decide

/-- Different signs are written differently. -/
theorem UnaryOp.text_injective {op op' : UnaryOp} (h : op.symbol.text = op'.symbol.text) :
    op = op' := by
  revert h
  cases op <;> cases op' <;> decide

/-- Different types are written differently. -/
theorem TypeName.text_injective {t t' : TypeName} (h : t.text = t'.text) : t = t' := by
  revert h
  cases t <;> cases t' <;> decide

/-- Different parameters have different outlines. -/
theorem Parameter.outline_injective {ps ps' : List Parameter}
    (h : ∀ p ∈ ps, (Token.identifier p.name).Lexical)
    (h' : ∀ p ∈ ps', (Token.identifier p.name).Lexical)
    (heq : Parameter.outline ps = Parameter.outline ps') : ps = ps' := by
  have hlist := (Outline.node.inj heq).2
  clear heq
  induction ps generalizing ps' with
  | nil =>
    -- The nodes of the parameters are compared one by one, by their labels.
    cases ps' with
    | nil => rfl
    | cons p' ps' => exact absurd hlist.symm (List.cons_ne_nil _ _)
  | cons p ps ih =>
    cases ps' with
    | nil => exact absurd hlist (List.cons_ne_nil _ _)
    | cons p' ps' =>
      -- The label has the name and whether it is mutable.
      rw [List.forall_mem_cons] at h h'
      obtain ⟨hhead, htail⟩ := List.cons.inj hlist
      obtain ⟨name, mutable⟩ := p
      obtain ⟨name', mutable'⟩ := p'
      have hlabel := (String.append_right_inj "Parameter ").mp (Outline.node.inj hhead).1
      obtain ⟨rfl, rfl⟩ := declaredName_injective h.1 h'.1 hlabel
      rw [ih h.2 h'.2 htail]

mutual

/-- Different expressions have different outlines. -/
theorem Expr.outline_injective : ∀ {e e' : Expr}, Slot.AllLexical e.slots →
    Slot.AllLexical e'.slots → e.outline = e'.outline → e = e'
  | .assign target value, e', h, h', heq => by
    -- The outline tells the form of the tree, and the label with the children what it is made of.
    cases Expr.alike_of_outline heq with
    | @assign _ target' _ value' =>
    simp only [Expr.slots, Slot.allLexical_dollar, Slot.allLexical_token] at h h'
    rw [Expr.outline, Expr.outline] at heq
    obtain ⟨hlabel, hchildren⟩ := Outline.node.inj heq
    obtain rfl := (String.append_right_inj _).mp hlabel
    obtain rfl := Expr.outline_injective h.2.2 h'.2.2 (List.singleton_inj.mp hchildren)
    rfl
  | .binary op left right, e', h, h', heq => by
    cases Expr.alike_of_outline heq with
    | @binary _ op' _ left' _ right' =>
    simp only [Expr.slots, Slot.allLexical_append, Slot.allLexical_token] at h h'
    rw [Expr.outline, Expr.outline] at heq
    obtain ⟨hlabel, hchildren⟩ := Outline.node.inj heq
    obtain ⟨hleft, hright⟩ := List.cons.inj hchildren
    -- The label is that of the operator.
    obtain rfl := BinaryOp.label_injective hlabel
    obtain rfl := Expr.outline_injective h.1 h'.1 hleft
    obtain rfl := Expr.outline_injective h.2.2 h'.2.2 (List.singleton_inj.mp hright)
    rfl
  | .cast operand target, e', h, h', heq => by
    cases Expr.alike_of_outline heq with
    | @cast _ operand' _ target' =>
    simp only [Expr.slots, Slot.allLexical_append] at h h'
    -- The operand comes first, and the type behind it, in a label of its own.
    rw [Expr.outline, Expr.outline] at heq
    obtain ⟨hoperand, htarget⟩ := List.cons.inj (Outline.node.inj heq).2
    obtain rfl := Expr.outline_injective h.1 h'.1 hoperand
    have hlabel := (Outline.node.inj (List.singleton_inj.mp htarget)).1
    obtain rfl := TypeName.text_injective ((String.append_right_inj _).mp hlabel)
    rfl
  | .unary op operand, e', h, h', heq => by
    cases Expr.alike_of_outline heq with
    | @unary _ op' _ operand' =>
    simp only [Expr.slots, Slot.allLexical_token] at h h'
    rw [Expr.outline, Expr.outline] at heq
    obtain ⟨hlabel, hchildren⟩ := Outline.node.inj heq
    obtain rfl := UnaryOp.text_injective ((String.append_right_inj _).mp hlabel)
    obtain rfl := Expr.outline_injective h.2 h'.2 (List.singleton_inj.mp hchildren)
    rfl
  | .call traced callee arguments, e', h, h', heq => by
    cases Expr.alike_of_outline heq with
    | @call _ traced' _ callee' _ arguments' =>
    -- What is asked of the slots is asked of the callee and the arguments, traced or not.
    have hcall : ∀ {t : Bool} {c : Expr} {es : List Expr},
        Slot.AllLexical (Expr.call t c es).slots →
          Slot.AllLexical c.slots ∧ Slot.AllLexical (Expr.listSlots es) := by
      intro t c es hall
      cases t <;> simpa [Expr.slots] using hall
    rw [Expr.outline, Expr.outline] at heq
    obtain ⟨hlabel, hchildren⟩ := Outline.node.inj heq
    obtain ⟨hcallee, harguments⟩ := List.cons.inj hchildren
    have hlist := (Outline.node.inj (List.singleton_inj.mp harguments)).2
    -- Calls that are traced have a word of their own, with nothing behind it.
    obtain rfl : traced = traced' := by
      revert hlabel
      cases traced <;> cases traced' <;> decide
    obtain rfl := Expr.outline_injective (hcall h).1 (hcall h').1 hcallee
    obtain rfl := Expr.outlines_injective (hcall h).2 (hcall h').2 hlist
    rfl
  | .lambda parameters body, e', h, h', heq => by
    cases Expr.alike_of_outline heq with
    | @lambda _ parameters' _ body' =>
    simp only [Expr.slots, Slot.allLexical_token, Slot.allLexical_append,
      Slot.allLexical_parameters] at h h'
    obtain ⟨-, hnames, -, hinner, -⟩ := h
    obtain ⟨-, hnames', -, hinner', -⟩ := h'
    rw [Expr.outline, Expr.outline] at heq
    obtain ⟨hparameters, hblock⟩ := List.cons.inj (Outline.node.inj heq).2
    have hbody := (Outline.node.inj (List.singleton_inj.mp hblock)).2
    obtain rfl := Parameter.outline_injective hnames hnames' hparameters
    obtain rfl := Stmt.outlines_injective hinner hinner' hbody
    rfl
  | .name x, e', _, _, heq => by
    cases Expr.alike_of_outline heq with
    | @name _ x' =>
    have hlabel := (Outline.node.inj heq).1
    obtain rfl := (String.append_right_inj "Identifier ").mp hlabel
    rfl
  | .paren inner, e', h, h', heq => by
    cases Expr.alike_of_outline heq with
    | @paren _ inner' =>
    simp only [Expr.slots, Slot.allLexical_token, Slot.allLexical_append] at h h'
    rw [Expr.outline, Expr.outline] at heq
    have hinner := List.singleton_inj.mp (Outline.node.inj heq).2
    obtain rfl := Expr.outline_injective h.2.1 h'.2.1 hinner
    rfl
  | .literal value, e', _, _, heq => by
    cases Expr.alike_of_outline heq with
    | @literal _ value' =>
    -- The text of a literal determines it.
    have hlabel := (Outline.node.inj heq).1
    obtain rfl := Literal.text_injective ((String.append_right_inj "Literal ").mp hlabel)
    rfl

/-- Different arguments have different outlines. -/
theorem Expr.outlines_injective : ∀ {es es' : List Expr}, Slot.AllLexical (Expr.listSlots es) →
    Slot.AllLexical (Expr.listSlots es') → Expr.outlines es = Expr.outlines es' → es = es'
  | [], [], _, _, _ => rfl
  | [], _ :: _, _, _, heq => absurd heq.symm (List.cons_ne_nil _ _)
  | _ :: _, [], _, _, heq => absurd heq (List.cons_ne_nil _ _)
  | e :: es, e' :: es', h, h', heq => by
    rw [Slot.allLexical_arguments] at h h'
    rw [Expr.outlines, Expr.outlines] at heq
    obtain ⟨hhead, htail⟩ := List.cons.inj heq
    obtain rfl := Expr.outline_injective h.1 h'.1 hhead
    obtain rfl := Expr.outlines_injective h.2 h'.2 htail
    rfl

/-- Different statements have different outlines. -/
theorem Stmt.outline_injective : ∀ {s s' : Stmt}, Slot.AllLexical s.slots →
    Slot.AllLexical s'.slots → s.outline = s'.outline → s = s'
  | .function name parameters body, s', h, h', heq => by
    cases Stmt.alike_of_outline heq with
    | @function _ name' _ parameters' _ body' =>
    simp only [Stmt.slots, Slot.allLexical_token, Slot.allLexical_append,
      Slot.allLexical_parameters] at h h'
    obtain ⟨-, -, hnames, -, hinner, -⟩ := h
    obtain ⟨-, -, hnames', -, hinner', -⟩ := h'
    rw [Stmt.outline, Stmt.outline] at heq
    -- The label has the name, and the children are the parameters and the body.
    obtain ⟨hlabel, hchildren⟩ := Outline.node.inj heq
    obtain ⟨hparameters, hblock⟩ := List.cons.inj hchildren
    have hbody := (Outline.node.inj (List.singleton_inj.mp hblock)).2
    obtain rfl := (String.append_right_inj _).mp hlabel
    obtain rfl := Parameter.outline_injective hnames hnames' hparameters
    obtain rfl := Stmt.outlines_injective hinner hinner' hbody
    rfl
  | .declare name mutable value, s', h, h', heq => by
    cases Stmt.alike_of_outline heq with
    | @declare _ name' _ mutable' _ value' =>
    -- What is asked of the slots is asked of the name and the value, mutable or not.
    have hdeclare : ∀ {x : String} {m : Bool} {e : Expr},
        Slot.AllLexical (Stmt.declare x m e).slots →
          (Token.identifier x).Lexical ∧ Slot.AllLexical e.slots := by
      intro x m e hall
      cases m <;> simpa [Stmt.slots] using hall
    rw [Stmt.outline, Stmt.outline] at heq
    obtain ⟨hlabel, hchildren⟩ := Outline.node.inj heq
    -- The label has the name and whether it is mutable.
    obtain ⟨rfl, rfl⟩ := declaredName_injective (hdeclare h).1 (hdeclare h').1
      ((String.append_right_inj _).mp hlabel)
    obtain rfl := Expr.outline_injective (hdeclare h).2 (hdeclare h').2
      (List.singleton_inj.mp hchildren)
    rfl
  | .loop condition body, s', h, h', heq => by
    cases Stmt.alike_of_outline heq with
    | @loop _ condition' _ body' =>
    simp only [Stmt.slots, Slot.allLexical_token, Slot.allLexical_append] at h h'
    obtain ⟨-, -, htest, -, -, hinner, -⟩ := h
    obtain ⟨-, -, htest', -, -, hinner', -⟩ := h'
    -- The condition and the body are the two children.
    rw [Stmt.outline, Stmt.outline] at heq
    obtain ⟨hcondition, hblock⟩ := List.cons.inj (Outline.node.inj heq).2
    have hbody := (Outline.node.inj (List.singleton_inj.mp hblock)).2
    obtain rfl := Expr.outline_injective htest htest' hcondition
    obtain rfl := Stmt.outlines_injective hinner hinner' hbody
    rfl
  | .conditional c, s', h, h', heq => by
    cases Stmt.alike_of_outline heq with
    | @conditional _ c' =>
    rw [Stmt.slots] at h h'
    rw [Stmt.outline, Stmt.outline] at heq
    obtain rfl := Conditional.outline_injective h h' heq
    rfl
  | .leave none, s', h, h', heq => by
    cases Stmt.alike_of_outline heq with
    | @leave _ value' =>
    -- A return without a value has no children, which tells it from one with a value.
    cases value' with
    | none => rfl
    | some value' =>
      rw [Stmt.outline, Stmt.outline] at heq
      exact absurd (Outline.node.inj heq).2.symm (List.cons_ne_nil _ _)
  | .leave (some value), s', h, h', heq => by
    cases Stmt.alike_of_outline heq with
    | @leave _ value' =>
    cases value' with
    | none =>
      rw [Stmt.outline, Stmt.outline] at heq
      exact absurd (Outline.node.inj heq).2 (List.cons_ne_nil _ _)
    | some value' =>
      simp only [Stmt.slots, Slot.allLexical_token, Slot.allLexical_append] at h h'
      rw [Stmt.outline, Stmt.outline] at heq
      have hvalue := List.singleton_inj.mp (Outline.node.inj heq).2
      obtain rfl := Expr.outline_injective h.2.1 h'.2.1 hvalue
      rfl
  | .expression e, s', h, h', heq => by
    cases Stmt.alike_of_outline heq with
    | @expression _ e' =>
    simp only [Stmt.slots, Slot.allLexical_append] at h h'
    rw [Stmt.outline, Stmt.outline] at heq
    have he := List.singleton_inj.mp (Outline.node.inj heq).2
    obtain rfl := Expr.outline_injective h.1 h'.1 he
    rfl
  | .empty, s', _, _, heq => by
    cases Stmt.alike_of_outline heq with
    | empty => rfl

/-- Different lists of statements have different outlines. -/
theorem Stmt.outlines_injective : ∀ {ss ss' : List Stmt}, Slot.AllLexical (Stmt.listSlots ss) →
    Slot.AllLexical (Stmt.listSlots ss') → Stmt.outlines ss = Stmt.outlines ss' → ss = ss'
  | [], [], _, _, _ => rfl
  | [], _ :: _, _, _, heq => absurd heq.symm (List.cons_ne_nil _ _)
  | _ :: _, [], _, _, heq => absurd heq (List.cons_ne_nil _ _)
  | s :: ss, s' :: ss', h, h', heq => by
    rw [Stmt.listSlots, Slot.allLexical_append] at h h'
    rw [Stmt.outlines, Stmt.outlines] at heq
    obtain ⟨hhead, htail⟩ := List.cons.inj heq
    obtain rfl := Stmt.outline_injective h.1 h'.1 hhead
    obtain rfl := Stmt.outlines_injective h.2 h'.2 htail
    rfl

/-- Different conditionals have different outlines. -/
theorem Conditional.outline_injective : ∀ {c c' : Conditional}, Slot.AllLexical c.slots →
    Slot.AllLexical c'.slots → c.outline = c'.outline → c = c'
  | .mk condition body otherwise, .mk condition' body' otherwise', h, h', heq => by
    simp only [Conditional.slots, Slot.allLexical_token, Slot.allLexical_append] at h h'
    obtain ⟨-, -, htest, -, -, hinner, -, hrest⟩ := h
    obtain ⟨-, -, htest', -, -, hinner', -, hrest'⟩ := h'
    rw [Conditional.outline, Conditional.outline] at heq
    obtain ⟨hcondition, hchildren⟩ := List.cons.inj (Outline.node.inj heq).2
    obtain ⟨hblock, hotherwise⟩ := List.cons.inj hchildren
    have hbody := (Outline.node.inj hblock).2
    obtain rfl := Expr.outline_injective htest htest' hcondition
    obtain rfl := Stmt.outlines_injective hinner hinner' hbody
    obtain rfl := Alternative.outlines_injective hrest hrest' hotherwise
    rfl

/-- What is executed otherwise is nothing, a block or a conditional, which has another label than a
block. -/
theorem Alternative.outlines_injective : ∀ {a a' : Alternative}, Slot.AllLexical a.slots →
    Slot.AllLexical a'.slots → a.outlines = a'.outlines → a = a'
  | .nothing, a', _, _, heq => by
    -- Nothing otherwise has no outline at all, and the others have one.
    cases a' with
    | nothing => rfl
    | block | chain => exact absurd heq.symm (List.cons_ne_nil _ _)
  | .block body, a', h, h', heq => by
    cases a' with
    | nothing => exact absurd heq (List.cons_ne_nil _ _)
    | block body' =>
      simp only [Alternative.slots, Slot.allLexical_token, Slot.allLexical_append] at h h'
      rw [Alternative.outlines, Alternative.outlines] at heq
      have hbody := (Outline.node.inj (List.singleton_inj.mp heq)).2
      obtain rfl := Stmt.outlines_injective h.2.2.1 h'.2.2.1 hbody
      rfl
    -- A block and a conditional have different words.
    | chain c' =>
      obtain ⟨condition', body', otherwise'⟩ := c'
      exact absurd (Outline.node.inj (List.cons.inj heq).1).1 (by decide)
  | .chain c, a', h, h', heq => by
    cases a' with
    | nothing => exact absurd heq (List.cons_ne_nil _ _)
    | block body' =>
      obtain ⟨condition, body, otherwise⟩ := c
      exact absurd (Outline.node.inj (List.cons.inj heq).1).1 (by decide)
    | chain c' =>
      simp only [Alternative.slots, Slot.allLexical_token] at h h'
      rw [Alternative.outlines, Alternative.outlines] at heq
      obtain rfl := Conditional.outline_injective h.2 h'.2 (List.singleton_inj.mp heq)
      rfl

end

/-! ## Programs -/

namespace Program

/-- Programs whose names are words are the same if they are shown alike. -/
theorem dump_injective {p p' : Program} (h : ∀ t ∈ p.tokens, t.Lexical)
    (h' : ∀ t ∈ p'.tokens, t.Lexical) (heq : p.dump = p'.dump) : p = p' := by
  -- The text determines the outline, and the outline the statements.
  have hlegible : ∀ {q : Program}, (∀ t ∈ q.tokens, t.Lexical) → q.outline.Legible :=
    fun hq => .node (by decide) (Stmt.legible_outlines hq)
  have houtline := Outline.text_injective (hlegible h) (hlegible h') heq
  obtain ⟨statements⟩ := p
  obtain ⟨statements'⟩ := p'
  obtain rfl := Stmt.outlines_injective h h' (Outline.node.inj houtline).2
  rfl

/-- The names and integers of a parsed program can be written. -/
theorem lexical_of_parse {limits : Limits} {src : Source} {p : Program}
    (h : parse limits src = .ok p) : ∀ t ∈ p.tokens, t.Lexical := by
  obtain ⟨-, ts, ls, -, hyields, -⟩ := filled_of_parse h
  intro t ht
  have hmem : t ∈ (ls.map (·.token)).filter (· ≠ .symbol .dollar) := by
    rw [filter_tokens_of_parse h hyields]
    exact List.mem_append_left _ ht
  obtain ⟨l, hl, rfl⟩ := List.mem_map.mp (List.mem_filter.mp hmem).1
  exact hyields.lexical l hl

/-- Programs that are parsed, within whatever limits and from whatever sources, are the same exactly
if they are shown alike. So are two sources whose trees are shown by the command: it writes the same
only if they are parsed to the same program. -/
theorem dump_faithful {limits limits' : Limits} {src src' : Source} {p p' : Program}
    (h : parse limits src = .ok p) (h' : parse limits' src' = .ok p') :
    (p.dump = p'.dump ↔ p = p') ∧
      ∀ session session' : Session, session.limits = limits → session'.limits = limits' →
        ((Command.runSource true session src).1 = (Command.runSource true session' src').1 ↔
          p = p') := by
  -- Programs of a parser have lexical slots, so the dump determines them.
  have hdump : p.dump = p'.dump ↔ p = p' := by
    constructor
    · exact dump_injective (lexical_of_parse h) (lexical_of_parse h')
    · rintro rfl
      rfl
  -- The bytes of a text are those of no other text.
  have hbytes : Text.bytes p.dump = Text.bytes p'.dump ↔ p = p' := by
    rw [← hdump]
    constructor
    · intro heq
      have hread := congrArg Text.ofBytes? heq
      rw [Text.ofBytes?_bytes, Text.ofBytes?_bytes] at hread
      exact Option.some.inj hread
    · exact congrArg Text.bytes
  -- The command writes the dump and nothing else if the source can be parsed.
  have hrun : ∀ {l : Limits} {s : Source} {q : Program}, parse l s = .ok q →
      ∀ session : Session, session.limits = l →
        (Command.runSource true session s).1 = Text.bytes q.dump := by
    rintro l s q hq session rfl
    unfold Command.runSource Session.parse
    rw [hq]
    rfl
  refine ⟨hdump, fun session session' hlimits hlimits' => ?_⟩
  rw [hrun h session hlimits, hrun h' session' hlimits', hbytes]

/-- A string that imitates the row of a name is shown differently from the name. -/
theorem dump_faithful_imitation :
    ∃ p p', parse .standard (.ofBytes (Text.bytes "\"1\n    Identifier x\";") .endOfFile) = .ok p ∧
      parse .standard (.ofBytes (Text.bytes "\"1\";x;") .endOfFile) = .ok p' ∧
      p.dump ≠ p'.dump := by
  -- Parsing gives a program with a number of statements, which tells the two apart.
  have hparsed : ∀ (src : Source) (n : Nat),
      (parse .standard src).toOption.map (·.statements.length) = some n →
        ∃ p, parse .standard src = .ok p ∧ p.statements.length = n := by
    intro src n hlength
    cases h : parse .standard src with
    | error e =>
      rw [h] at hlength
      exact absurd hlength (by simp [Except.toOption])
    | ok p =>
      rw [h] at hlength
      exact ⟨p, rfl, Option.some.inj hlength⟩
  obtain ⟨p, h, hone⟩ := hparsed (.ofBytes (Text.bytes "\"1\n    Identifier x\";") .endOfFile) 1
    (by decide +kernel)
  obtain ⟨p', h', htwo⟩ := hparsed (.ofBytes (Text.bytes "\"1\";x;") .endOfFile) 2
    (by decide +kernel)
  refine ⟨p, p', h, h', ?_⟩
  rw [Ne, (dump_faithful h h').1]
  rintro rfl
  exact absurd (hone.symm.trans htwo) (by decide)

end Program

end Brisk
