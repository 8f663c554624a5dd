import Brisk.Proofs.Parse.Nesting
import Brisk.Proofs.Source.Append

/-!
# Programs one after another

Where sources that can be parsed follow one another, they are parsed to the statements of each in
turn, if all but the last end with a line feed (`Program.parse_append`, `Program.parse_flatten`). No
token goes across a line break, a statement never goes on when it can end, and statements of two
programs open no more levels than the statements of each.
-/

namespace Brisk

namespace Stmt

/-- Statements and further ones are well-formed if both are. -/
theorem allWellFormed_append {ss ss' : List Stmt} :
    AllWellFormed (ss ++ ss') ↔ AllWellFormed ss ∧ AllWellFormed ss' := by
  induction ss with
  | nil => rw [List.nil_append, AllWellFormed, true_and]
  | cons s ss ih => rw [List.cons_append, AllWellFormed, AllWellFormed, ih, and_assoc]

/-- Statements and further ones need as many levels as the ones of them that need more. -/
theorem listNesting_append (ss ss' : List Stmt) :
    listNesting (ss ++ ss') = max (listNesting ss) (listNesting ss') := by
  induction ss with
  | nil => rw [List.nil_append, listNesting, Nat.zero_max]
  | cons s ss ih => rw [List.cons_append, listNesting, listNesting, ih, Nat.max_assoc]

/-- Statements and further ones are written one behind the other. -/
theorem listSlots_append (ss ss' : List Stmt) :
    listSlots (ss ++ ss') = listSlots ss ++ listSlots ss' := by
  induction ss with
  | nil => rw [List.nil_append, listSlots, List.nil_append]
  | cons s ss ih => rw [List.cons_append, listSlots, listSlots, ih, List.append_assoc]

end Stmt

namespace Program

variable {limits : Limits} {p : Program}

/-- Bytes that are parsed are a text. -/
theorem decoded_of_parse {bytes : List UInt8}
    (h : parse limits (.ofBytes bytes .endOfFile) = .ok p) : ∃ s, Text.ofBytes? bytes = some s := by
  obtain ⟨-, ts, ls, -, hyields, -⟩ := filled_of_parse h
  obtain ⟨⟨text, hspells⟩, hfailure⟩ := hyields.spells
  exact (Source.decoded_of_spells hspells hfailure).2

/-- A text that ends with a line feed and one behind it are parsed to the statements of the first
and then those of the second, if each can be parsed on its own. -/
theorem parse_ofString_append {s s' : String} {p' : Program}
    (hbreak : s.toList.getLast? = some '\n') (h : parse limits (.ofString s) = .ok p)
    (h' : parse limits (.ofString s') = .ok p') :
    parse limits (.ofString (s ++ s')) = .ok ⟨p.statements ++ p'.statements⟩ := by
  obtain ⟨hwf, ts, ls, hfilled, hyields, htokens⟩ := filled_of_parse h
  obtain ⟨hwf', ts', ls', hfilled', hyields', htokens'⟩ := filled_of_parse h'
  -- The tokens of both sources stand one behind the other.
  obtain ⟨ls₁, hyields₁, htokens₁⟩ :=
    Lexer.yields_ofString_append hbreak hyields htokens hyields' htokens'
  -- The statements of both are a program that keeps the limits and is written as the tokens.
  have hwf₁ : WellFormed ⟨p.statements ++ p'.statements⟩ :=
    Stmt.allWellFormed_append.mpr ⟨hwf, hwf'⟩
  have hnesting₁ : nesting ⟨p.statements ++ p'.statements⟩ ≤ limits.nesting := by
    show Stmt.listNesting (p.statements ++ p'.statements) ≤ limits.nesting
    rw [Stmt.listNesting_append]
    exact Nat.max_le.mpr ⟨nesting_le_of_parse h, nesting_le_of_parse h'⟩
  have hfilled₁ : Slot.Filled (slots ⟨p.statements ++ p'.statements⟩) (ts ++ ts') := by
    show Slot.Filled (Stmt.listSlots (p.statements ++ p'.statements)) (ts ++ ts')
    rw [Stmt.listSlots_append]
    exact hfilled.append hfilled'
  obtain ⟨first, src₁, s₁, hlexeme, hreads, hend⟩ := hyields₁.reads htokens₁
  have hprogram := Parse.program_complete (Source.closed_lexemes first limits src₁) hwf₁ hnesting₁
    ⟨ts ++ ts', hfilled₁, hreads⟩ hend
  exact parse_eq_ok_iff.mpr ⟨first, src₁, s₁, hlexeme, hprogram⟩

/-- Bytes that end with a line feed and bytes behind them are parsed to the statements of the first
and then those of the second, if each can be parsed on its own. -/
theorem parse_append {bytes bytes' : List UInt8} {p' : Program} (hbreak : bytes.getLast? = some 10)
    (h : parse limits (.ofBytes bytes .endOfFile) = .ok p)
    (h' : parse limits (.ofBytes bytes' .endOfFile) = .ok p') :
    parse limits (.ofBytes (bytes ++ bytes') .endOfFile) =
      .ok ⟨p.statements ++ p'.statements⟩ := by
  obtain ⟨s, hs⟩ := decoded_of_parse h
  obtain ⟨s', hs'⟩ := decoded_of_parse h'
  rw [Source.ofBytes_eq_ofString hs] at h
  rw [Source.ofBytes_eq_ofString hs'] at h'
  rw [Source.ofBytes_eq_ofString (Text.ofBytes?_append hs hs')]
  exact parse_ofString_append (Text.getLast?_eq_lineFeed hs hbreak) h h'

/-- Sources of which all but the last end with a line feed are parsed to the statements of each in
turn, if each can be parsed on its own. -/
theorem parse_flatten {sources : List (List UInt8)} {programs : List Program} (hne : sources ≠ [])
    (hbreak : ∀ bytes ∈ sources.dropLast, bytes.getLast? = some 10)
    (h : sources.map (fun bytes => parse limits (.ofBytes bytes .endOfFile)) = programs.map .ok) :
    parse limits (.ofBytes sources.flatten .endOfFile) =
      .ok ⟨programs.flatMap (·.statements)⟩ := by
  induction sources generalizing programs with
  | nil => exact absurd rfl hne
  | cons bytes sources ih =>
    obtain ⟨p, programs, rfl, hparsed, hmore⟩ := List.map_eq_cons_iff.mp h.symm
    have hp : parse limits (.ofBytes bytes .endOfFile) = .ok p := hparsed.symm
    -- The last source is parsed as it is, and any other one ends with a line break.
    cases sources with
    | nil =>
      obtain rfl := List.map_eq_nil_iff.mp hmore
      rw [List.flatten_singleton, List.flatMap_singleton, hp]
    | cons bytes' sources =>
      have hrest := ih (List.cons_ne_nil _ _)
        (fun b hb => hbreak b (List.mem_cons_of_mem bytes hb)) hmore.symm
      rw [List.flatten_cons, List.flatMap_cons]
      exact parse_append (hbreak bytes List.mem_cons_self) hp hrest

end Program

end Brisk
