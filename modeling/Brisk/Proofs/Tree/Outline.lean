import Brisk.Tree.Outline
import Brisk.Proofs.Text.Quoted

/-!
# Outlines can be told from their text

The text of an outline determines its rows, since no label holds a line feed or starts with a blank
(`Outline.flatMap_text_injective`), and the rows determine the outline: the rows of a node end where
one follows that is not deeper than the node (`Outline.rows_append_injective`). So outlines with
such labels are the same if they are written alike (`Outline.text_injective`).
-/

namespace Brisk.Outline

/-- Whether a label can be told from the indentation in front of it and from the row behind it. -/
def IsLabel (label : String) : Prop := '\n' ∉ label.toList ∧ label.toList.head? ≠ some ' '

instance (label : String) : Decidable (IsLabel label) :=
  inferInstanceAs (Decidable (_ ∧ _))

/-- Whether all labels in an outline can be told from what is around them. -/
inductive Legible : Outline → Prop where
  | node {label : String} {children : List Outline} (hlabel : IsLabel label)
      (hchildren : ∀ o ∈ children, Legible o) : Legible (.node label children)

mutual

/-- The rows of a legible outline have labels. -/
theorem Legible.rows : ∀ {o : Outline} (depth : Nat), o.Legible →
    ∀ row ∈ o.rows depth, IsLabel row.label
  | .node label children, depth, h, row, hrow => by
    obtain ⟨hlabel, hchildren⟩ := h
    rw [Outline.rows] at hrow
    rcases List.mem_cons.mp hrow with rfl | hrow
    · exact hlabel
    · exact Legible.rowsOfAll (depth + 1) hchildren row hrow

/-- The rows of legible outlines one below the other have labels. -/
theorem Legible.rowsOfAll : ∀ {os : List Outline} (depth : Nat), (∀ o ∈ os, o.Legible) →
    ∀ row ∈ rowsOfAll depth os, IsLabel row.label
  | [], depth, _, row, hrow => by
    rw [Outline.rowsOfAll] at hrow
    exact absurd hrow List.not_mem_nil
  | o :: os, depth, h, row, hrow => by
    rw [Outline.rowsOfAll] at hrow
    rcases List.mem_append.mp hrow with hrow | hrow
    · exact Legible.rows depth (h o List.mem_cons_self) row hrow
    · exact Legible.rowsOfAll depth (fun o' ho => h o' (List.mem_cons_of_mem o ho)) row hrow

end

/-! ## Rows in a text -/

/-- Indentation ends where something else starts. -/
theorem indent_append_injective {n n' : Nat} {cs cs' : List Char} (h : cs.head? ≠ some ' ')
    (h' : cs'.head? ≠ some ' ')
    (heq : List.replicate n ' ' ++ cs = List.replicate n' ' ' ++ cs') : n = n' ∧ cs = cs' := by
  induction n generalizing n' with
  | zero =>
    cases n' with
    | zero => exact ⟨rfl, heq⟩
    | succ n' => exact absurd (congrArg List.head? heq) h
  | succ n ih =>
    cases n' with
    | zero => exact absurd (congrArg List.head? heq).symm h'
    | succ n' =>
      obtain ⟨rfl, hcs⟩ := ih (List.cons.inj heq).2
      exact ⟨rfl, hcs⟩

/-- A row ends where the next one starts. -/
theorem Row.text_append_injective {row row' : Row} {rest rest' : List Char}
    (h : IsLabel row.label) (h' : IsLabel row'.label)
    (heq : row.text ++ rest = row'.text ++ rest') : row = row' ∧ rest = rest' := by
  obtain ⟨depth, label⟩ := row
  obtain ⟨depth', label'⟩ := row'
  have hline : ∀ {k : Nat} {l : String}, IsLabel l →
      '\n' ∉ List.replicate (2 * k) ' ' ++ l.toList := by
    intro k l hl hmem
    rcases List.mem_append.mp hmem with hblank | hlabel
    · exact absurd (List.eq_of_mem_replicate hblank) (by decide)
    · exact hl.1 hlabel
  -- The first line feed ends the row, and the first character that is no blank its indentation.
  unfold Row.text at heq
  rw [List.append_assoc _ ['\n'], List.append_assoc _ ['\n']] at heq
  obtain ⟨hrow, hrest⟩ := Text.append_mark_injective (hline h) (hline h') heq
  obtain ⟨hdepth, hlabel⟩ := indent_append_injective h.2 h'.2 hrow
  obtain rfl : depth = depth' := Nat.eq_of_mul_eq_mul_left (by decide) hdepth
  obtain rfl := String.toList_inj.mp hlabel
  exact ⟨rfl, hrest⟩

/-- Rows that are written one below the other can be told apart. -/
theorem flatMap_text_injective {rows rows' : List Row} (h : ∀ row ∈ rows, IsLabel row.label)
    (h' : ∀ row ∈ rows', IsLabel row.label)
    (heq : rows.flatMap Row.text = rows'.flatMap Row.text) : rows = rows' := by
  -- A row is never empty, since it ends with a line feed.
  have hne : ∀ (row : Row) (rest : List Char), row.text ++ rest ≠ [] := by
    intro row rest hnil
    unfold Row.text at hnil
    simp at hnil
  induction rows generalizing rows' with
  | nil =>
    cases rows' with
    | nil => rfl
    | cons row' rows' => exact absurd heq.symm (hne row' _)
  | cons row rows ih =>
    cases rows' with
    | nil => exact absurd heq (hne row _)
    | cons row' rows' =>
      -- The first rows are cut off alike, since labels have no line feeds.
      rw [List.flatMap_cons, List.flatMap_cons] at heq
      obtain ⟨rfl, hrest⟩ := Row.text_append_injective (h row List.mem_cons_self)
        (h' row' List.mem_cons_self) heq
      rw [ih (fun r hr => h r (List.mem_cons_of_mem row hr))
        (fun r hr => h' r (List.mem_cons_of_mem row hr)) hrest]

/-! ## Nodes in rows -/

/-- Whether rows do not go on with one at a given depth or deeper. -/
def Closed (depth : Nat) (rows : List Row) : Prop := ∀ row ∈ rows.head?, row.depth < depth

/-- Rows that close a depth close it behind further outlines one deeper. -/
theorem Closed.rowsOfAll {depth : Nat} {rest : List Row} (h : Closed depth rest)
    (os : List Outline) : Closed (depth + 1) (rowsOfAll depth os ++ rest) := by
  cases os with
  | nil => exact fun row hrow => Nat.lt_succ_of_lt (h row hrow)
  | cons o os =>
    obtain ⟨label, children⟩ := o
    intro row hrow
    obtain rfl := Option.some.inj hrow
    exact Nat.lt_succ_self depth

/-- The first row of an outline does not close the depth that it has. -/
theorem not_closed_rowsOfAll (depth : Nat) (o : Outline) (os : List Outline) (rest : List Row) :
    ¬Closed depth (rowsOfAll depth (o :: os) ++ rest) := by
  obtain ⟨label, children⟩ := o
  intro h
  exact absurd (h ⟨depth, label⟩ rfl) (Nat.lt_irrefl depth)

mutual

/-- The rows of a node end in front of the first one that is not deeper. -/
theorem rows_append_injective : ∀ {o o' : Outline} {depth : Nat} {rest rest' : List Row},
    Closed (depth + 1) rest → Closed (depth + 1) rest' →
    o.rows depth ++ rest = o'.rows depth ++ rest' → o = o' ∧ rest = rest'
  | .node label children, .node label' children', depth, rest, rest', h, h', heq => by
    rw [rows, rows] at heq
    obtain ⟨hrow, htail⟩ := List.cons.inj heq
    -- Children are one level deeper, and nothing that follows the node is.
    obtain ⟨-, rfl⟩ := Row.mk.inj hrow
    obtain ⟨rfl, hrest⟩ := rowsOfAll_append_injective h h' htail
    exact ⟨rfl, hrest⟩

/-- The rows of nodes side by side end in front of the first one at a lesser depth. -/
theorem rowsOfAll_append_injective : ∀ {os os' : List Outline} {depth : Nat}
    {rest rest' : List Row}, Closed depth rest → Closed depth rest' →
    rowsOfAll depth os ++ rest = rowsOfAll depth os' ++ rest' → os = os' ∧ rest = rest'
  | [], [], depth, rest, rest', _, _, heq => ⟨rfl, heq⟩
  | [], o' :: os', depth, rest, rest', h, _, heq => by
    have hrest : rest = rowsOfAll depth (o' :: os') ++ rest' := heq
    exact absurd (hrest ▸ h) (not_closed_rowsOfAll depth o' os' rest')
  | o :: os, [], depth, rest, rest', _, h', heq => by
    have hrest : rowsOfAll depth (o :: os) ++ rest = rest' := heq
    exact absurd (hrest ▸ h') (not_closed_rowsOfAll depth o os rest)
  | o :: os, o' :: os', depth, rest, rest', h, h', heq => by
    rw [rowsOfAll, rowsOfAll, List.append_assoc, List.append_assoc] at heq
    obtain ⟨rfl, hmore⟩ := rows_append_injective (h.rowsOfAll os) (h'.rowsOfAll os') heq
    obtain ⟨rfl, hrest⟩ := rowsOfAll_append_injective h h' hmore
    exact ⟨rfl, hrest⟩

end

/-- Outlines that are written alike are the same. -/
theorem text_injective {o o' : Outline} (h : o.Legible) (h' : o'.Legible)
    (heq : o.text = o'.text) : o = o' := by
  have hrows := flatMap_text_injective (h.rows 0) (h'.rows 0) (String.ofList_inj.mp heq)
  have hclosed : Closed 1 [] := fun row hrow => absurd hrow (by simp)
  have hsame : o.rows 0 ++ [] = o'.rows 0 ++ [] := by rw [hrows]
  exact (rows_append_injective hclosed hclosed hsame).1

end Brisk.Outline
