import Brisk.Proofs.Number.Literal
import Brisk.Value.Cast
import Mathlib.Data.Nat.Digits.Defs

/-!
# Numerals

Decimal text is read in two places, as an integer literal of a source and by a cast, and it is
written in one. All of them go by what a numeral denotes (`Integer.Denotes`): a cast reads exactly
the numerals whose value fits (`Integer.read?_eq_some_iff`), a text of digits is lexed to exactly
what it is cast to (`Scan.lexeme_of_digits`), and an integer is written without leading zeros
(`Integer.toDigits_ofDigits`). How they fit together is `Integer.numerals_agree`.
-/

namespace Brisk

namespace Integer

/-! ## What a numeral denotes -/

/-- The value of digits in the decimal system. The last one counts once, the one before it ten
times, and so on. -/
def magnitude (ds : List Char) : Nat :=
  Nat.ofDigits 10 (ds.reverse.map fun d => d.toNat - '0'.toNat)

/-- What a numeral denotes: digits, perhaps with a sign in front of them. -/
inductive Denotes : List Char → Int → Prop where
  | digits {ds : List Char} (hne : ds ≠ []) (hds : ∀ d ∈ ds, d.isDigit = true) :
      Denotes ds (magnitude ds)
  | plus {ds : List Char} (hne : ds ≠ []) (hds : ∀ d ∈ ds, d.isDigit = true) :
      Denotes ('+' :: ds) (magnitude ds)
  | minus {ds : List Char} (hne : ds ≠ []) (hds : ∀ d ∈ ds, d.isDigit = true) :
      Denotes ('-' :: ds) (-(magnitude ds : Int))

variable {ds cs : List Char} {d : Char} {n : Int32} {s : String}

/-- Digits that are read from the front have the value that they have by their places. -/
theorem magnitude_eq (ds : List Char) : magnitude ds = ofDigits ds := by
  -- The last digit is the first one of the reversed list, so the induction is from the end.
  induction ds using List.reverseRecOn with
  | nil => rfl
  | append_singleton ds d ih =>
    unfold magnitude at ih ⊢
    rw [List.reverse_append, List.reverse_singleton, List.singleton_append, List.map_cons,
      Nat.ofDigits_cons, ih]
    unfold ofDigits
    rw [List.foldl_append, Nat.add_comm]
    rfl

/-! ## Reading -/

/-- Digits are read if there are some and nothing else, and to their positional value. -/
theorem digits?_eq_some_iff {k : Nat} : digits? ofDigits ds = some k ↔
    ds ≠ [] ∧ (∀ d ∈ ds, d.isDigit = true) ∧ magnitude ds = k := by
  simp only [digits?, magnitude_eq, List.all_eq_true, Option.ite_none_right_eq_some,
    Option.some.injEq, and_assoc]

/-- The reader of numerals gives what they denote. -/
theorem signed?_eq_some_iff {z : Int} : signed? ofDigits cs = some z ↔ Denotes cs z := by
  constructor
  · intro h
    -- What is read behind the sign are digits, whatever is then made of their magnitude.
    have hread : ∀ {ds : List Char} {f : Int → Int},
        ((do let k ← digits? ofDigits ds; pure (k : Int) : Option Int)).map f = some z →
          ds ≠ [] ∧ (∀ d ∈ ds, d.isDigit = true) ∧ f (magnitude ds) = z := by
      intro ds f hf
      cases hk : digits? ofDigits ds with
      | none => exact absurd hf (by simp [hk])
      | some k =>
        obtain ⟨hne, hds, rfl⟩ := digits?_eq_some_iff.mp hk
        rw [hk] at hf
        exact ⟨hne, hds, Option.some.inj hf⟩
    unfold signed? at h
    split at h
    · obtain ⟨hne, hds, rfl⟩ := hread h
      exact .minus hne hds
    · obtain ⟨hne, hds, rfl⟩ := hread h
      exact .plus hne hds
    · obtain ⟨hne, hds, rfl⟩ := hread h
      exact .digits hne hds
  · intro h
    cases h with
    | plus hne hds | minus hne hds =>
      rw [signed?, digits?_eq_some_iff.mpr ⟨hne, hds, rfl⟩]
      rfl
    | digits hne hds =>
      -- A digit is no sign.
      have hsign : ∀ c ds', cs = c :: ds' → c.isDigit = true := by
        rintro c ds' rfl
        exact hds c List.mem_cons_self
      unfold signed?
      split
      next heq => exact absurd (hsign '-' _ rfl) (by decide)
      next heq => exact absurd (hsign '+' _ rfl) (by decide)
      · rw [digits?_eq_some_iff.mpr ⟨hne, hds, rfl⟩]
        rfl

/-- A number that fits in 32 bits is the value of an integer. -/
theorem ofInt?_eq_some_iff {z : Int} : ofInt? z = some n ↔ n.toInt = z := by
  refine ⟨toInt_of_ofInt?, ?_⟩
  rintro rfl
  unfold ofInt?
  rw [if_pos ⟨n.minValue_le_toInt, n.toInt_le⟩, Int32.ofInt_toInt]

/-- The integers that are read are those that numerals denote. -/
theorem read?_eq_some_iff : read? s = some n ↔ Denotes s.toList n.toInt := by
  unfold read?
  rw [Option.bind_eq_some_iff]
  constructor
  · rintro ⟨z, hz, hn⟩
    rw [ofInt?_eq_some_iff.mp hn]
    exact signed?_eq_some_iff.mp hz
  · intro h
    exact ⟨_, signed?_eq_some_iff.mpr h, ofInt?_eq_some_iff.mpr rfl⟩

/-- A text is not read exactly if it denotes no integer that fits in 32 bits. -/
theorem read?_eq_none_iff : read? s = none ↔
    ¬∃ z, Denotes s.toList z ∧ -2147483648 ≤ z ∧ z ≤ 2147483647 := by
  rw [Option.eq_none_iff_forall_ne_some]
  constructor
  · rintro h ⟨z, hz, hmin, hmax⟩
    -- A number in range is the value of the integer that is cut from it.
    have hvalue : (Int32.ofInt z).toInt = z := Int32.toInt_ofInt_of_le (by omega) (by omega)
    refine h (Int32.ofInt z) (read?_eq_some_iff.mpr ?_)
    rw [hvalue]
    exact hz
  · intro h n hn
    exact h ⟨n.toInt, read?_eq_some_iff.mp hn, n.minValue_le_toInt, n.toInt_le⟩

/-- Every integer is read back from its text. -/
theorem read?_text (n : Int32) : read? (text n) = some n := by
  unfold read? text
  rw [signed?_toString, Option.bind_some]
  exact ofInt?_eq_some_iff.mpr rfl

/-- Digits are read if their value fits. -/
theorem read?_of_digits (hne : s ≠ "") (hs : ∀ d ∈ s.toList, d.isDigit = true) :
    read? s = ofInt? (ofDigits s.toList) := by
  have hne' : s.toList ≠ [] := fun hnil => hne (String.toList_eq_nil_iff.mp hnil)
  unfold read?
  rw [signed?_eq_some_iff.mpr (.digits hne' hs), magnitude_eq, Option.bind_some]

/-! ## Writing -/

/-- Digits without the zeros in front of them. One zero stays if there is nothing else. -/
def stripped (ds : List Char) : List Char :=
  match ds.dropWhile (· = '0') with
  | [] => ['0']
  | ds => ds

/-- A digit is the one that its value is written as. -/
theorem digitChar_of_isDigit (hd : d.isDigit = true) :
    d.toNat - 48 < 10 ∧ (d.toNat - 48).digitChar = d := by
  have hrange : 48 ≤ d.toNat ∧ d.toNat ≤ 57 := Char.isDigit_iff_toNat.mp hd
  have hchar : ∀ k < 10, k.digitChar.toNat = k + 48 := by decide
  refine ⟨by omega, Char.toNat_inj.mp ?_⟩
  rw [hchar _ (by omega)]
  omega

/-- Digits behind the digits of a positive number are those of the number that goes on with
them. -/
theorem toDigits_append {m : Nat} (hm : 0 < m) (hds : ∀ d ∈ ds, d.isDigit = true) :
    Nat.toDigits 10 m ++ ds = Nat.toDigits 10 (Nat.ofDigitChars 10 ds m) := by
  induction ds generalizing m with
  | nil => rw [List.append_nil, Nat.ofDigitChars_nil]
  -- The digits move over one by one, as long as the number in front of them is not zero.
  | cons d ds ih =>
    rw [List.forall_mem_cons] at hds
    obtain ⟨hlt, hchar⟩ := digitChar_of_isDigit hds.1
    have hnext : Nat.toDigits 10 m ++ [d] = Nat.toDigits 10 (10 * m + (d.toNat - 48)) := by
      rw [← Nat.toDigits_append_toDigits (by decide) hm hlt, Nat.toDigits_of_lt_base hlt, hchar]
    rw [Nat.ofDigitChars_cons, ← List.singleton_append, ← List.append_assoc, hnext]
    exact ih (by omega) hds.2

/-- The value of digits is written without the zeros in front of them. -/
theorem toDigits_ofDigits (hds : ∀ d ∈ ds, d.isDigit = true) :
    Nat.toDigits 10 (ofDigits ds) = stripped ds := by
  induction ds with
  | nil => rfl
  | cons d ds ih =>
    rw [List.forall_mem_cons] at hds
    by_cases hd : d = '0'
    · subst hd
      exact ih hds.2
    · -- Behind a digit that is no zero all digits count.
      obtain ⟨hlt, hchar⟩ := digitChar_of_isDigit hds.1
      have hpos : 0 < d.toNat - 48 := by
        rw [Nat.pos_iff_ne_zero]
        intro hzero
        rw [hzero] at hchar
        exact hd hchar.symm
      have hstripped : stripped (d :: ds) = d :: ds := by
        unfold stripped
        rw [List.dropWhile_cons_of_neg (by simpa using hd)]
      have hvalue : ofDigits (d :: ds) = Nat.ofDigitChars 10 ds (d.toNat - 48) := by
        show Nat.ofDigitChars 10 (d :: ds) 0 = _
        rw [Nat.ofDigitChars_cons, Nat.mul_zero, Nat.zero_add]
        rfl
      rw [hstripped, hvalue, ← toDigits_append hpos hds.2, Nat.toDigits_of_lt_base hlt, hchar]
      rfl

/-- An integer that digits denote is written as these digits without the zeros in front. -/
theorem text_of_digits (hn : n.toInt = ofDigits ds) (hds : ∀ d ∈ ds, d.isDigit = true) :
    text n = String.ofList (stripped ds) := by
  have hnonneg : 0 ≤ n := by
    rw [Int32.le_iff_toInt_le, hn]
    exact Int.natCast_nonneg _
  rw [← String.ofList_toList (s := text n), toList_text hnonneg, hn, Int.toNat_natCast,
    toDigits_ofDigits hds]

end Integer

/-! ## Lexing -/

namespace Scan

variable {limits : Limits} {edge : Edge} {rest : List Placed} {p : Placed} {d : Char}
  {ds : List Char}

/-- Digits up to the end of a source are one integer literal. -/
theorem lexeme_of_digits (hfailure : edge.failure = none) (hp : p.piece.char? = some d)
    (hspells : Spells rest ds []) (hds : ∀ c ∈ d :: ds, c.isDigit = true) :
    lexeme limits edge (p :: rest) =
      ((integer p.position (d :: ds)).map (⟨·, p.position⟩), []) := by
  rw [List.forall_mem_cons] at hds
  obtain ⟨hd, hds⟩ := hds
  have hrange : 48 ≤ d.toNat ∧ d.toNat ≤ 57 := Char.isDigit_iff_toNat.mp hd
  have hne : ∀ c : Char, c.toNat < 48 → d ≠ c := by
    rintro c hc rfl
    omega
  have hpiece : p.piece = .char d := Piece.eq_char_of_char? hp (hne '\n' (by decide))
  -- A digit is no blank, no quotation mark and no slash, so the scanner comes to the numbers.
  have hblank : Text.isBlank d = false := by
    cases hb : Text.isBlank d with
    | false => rfl
    | true => exact absurd hd (by rw [Text.isDigit_of_isBlank hb]; decide)
  have hskip : skip limits edge (p :: rest) = (.ok (some (d, p.position)), rest) := by
    rw [skip, hpiece]
    simp only [hblank, Bool.false_eq_true, if_false, if_neg (hne '/' (by decide))]
  have hrun : run Char.isDigit rest = (ds, []) :=
    run_of_spells (by decide) hspells hds (by simp)
  have htoken : token limits edge p.position d rest = (integer p.position (d :: ds), []) := by
    unfold token number
    rw [if_neg (hne '"' (by decide)), if_pos hd]
    simp only [hrun, withNext_nil, hfailure]
    rfl
  unfold lexeme
  rw [hskip]
  simp only [htoken]

end Scan

namespace Lexer

variable {limits : Limits} {s : String} {ls : List Lexeme} {n : Int32}

/-- The source that a text is, given as bytes. -/
abbrev ofText (limits : Limits) (s : String) : Lexer :=
  ⟨limits, .ofBytes (Text.bytes s) .endOfFile, false⟩

/-- The only scan of a text of digits that comes to something finds the literal at its start. -/
theorem lexeme_of_digits (limits : Limits) (hne : s ≠ "") (hs : ∀ d ∈ s.toList, d.isDigit = true) :
    ∃ edge, edge.failure = none ∧ (ofText limits s).source.lexeme limits =
      ((Scan.integer ⟨1, 1⟩ s.toList).map (⟨·, ⟨1, 1⟩⟩), ⟨[], edge⟩) := by
  have hspells : Spells (Source.ofString s).ahead s.toList [] := by
    have hplain := Text.normalize_append_of_not_mem (Scan.return_not_mem_digits hs) []
    rw [List.append_nil, Text.normalize, List.append_nil] at hplain
    rw [← hplain]
    exact Source.spells_place _ .start
  have hlaid := Source.laid_place (Source.piecesOfChars_ne_lineFeed s.toList) .start
  refine ⟨(Source.ofString s).edge, rfl, ?_⟩
  show Source.lexeme limits (.ofBytes _ _) = _
  rw [Source.ofBytes_eq_ofString (Text.ofBytes?_bytes s)]
  have hahead : (Source.ofString s).ahead =
      (Source.place .start (Source.piecesOfChars s.toList)).1 := rfl
  rw [← hahead] at hlaid
  -- The text is not empty, and its first character starts the number.
  obtain ⟨d, ds, hds⟩ : ∃ d ds, s.toList = d :: ds :=
    List.exists_cons_of_ne_nil fun hnil => hne (String.toList_eq_nil_iff.mp hnil)
  rw [hds] at hspells hs ⊢
  generalize hrest : (Source.ofString s).ahead = ahead at hspells hlaid
  obtain _ | @⟨p, rest, _, _, _, hp, hspells⟩ := hspells
  have hposition : p.position = ⟨1, 1⟩ := hlaid.1
  unfold Source.lexeme
  rw [hrest, Scan.lexeme_of_digits rfl hp hspells hs, hposition]

/-- A text of digits is lexed to an integer if their value fits. -/
theorem yields_digits (hne : s ≠ "") (hs : ∀ d ∈ s.toList, d.isDigit = true) :
    (∃ ls, Yields (ofText limits s) ls ∧ ls.map (·.token) = [.int n, .endOfFile]) ↔
      Integer.ofInt? (Integer.ofDigits s.toList) = some n := by
  obtain ⟨edge, hfailure, hlexeme⟩ := lexeme_of_digits limits hne hs
  cases hread : Integer.ofInt? (Integer.ofDigits s.toList) with
  -- The scanner fails for the whole text, so there is no first lexeme.
  | none =>
    have herror : (Scan.integer ⟨1, 1⟩ s.toList) =
        .error (.invalid ⟨1, 1⟩ (.integerOutOfRange s)) := by
      unfold Scan.integer
      rw [hread, String.ofList_toList]
    rw [herror] at hlexeme
    refine ⟨?_, fun h => absurd h (by simp)⟩
    rintro ⟨ls, hyields, -⟩
    obtain ⟨l, src', hl, -⟩ := yields_iff.mp hyields
    exact absurd (hlexeme.symm.trans hl) (by simp [Except.map])
  | some m =>
    have hok : (Scan.integer ⟨1, 1⟩ s.toList) = .ok (.int m) := by
      unfold Scan.integer
      rw [hread]
    rw [hok] at hlexeme
    -- Behind the number there is nothing but the end.
    have hyields : Yields (ofText limits s) [⟨.int m, ⟨1, 1⟩⟩, ⟨.endOfFile, edge.position⟩] :=
      yields_iff.mpr ⟨_, _, hlexeme, .inr ⟨by simp, _, rfl, yields_of_nil rfl hfailure⟩⟩
    constructor
    · rintro ⟨ls, hls, htokens⟩
      rw [hls.unique hyields] at htokens
      simpa using htokens
    · intro h
      obtain rfl := Option.some.inj h
      exact ⟨_, hyields, rfl⟩

/-- A text of digits is refused at its start if their value does not fit. -/
theorem step_digits (hne : s ≠ "") (hs : ∀ d ∈ s.toList, d.isDigit = true) :
    (∃ src, (ofText limits s).step =
      (some (.error (.invalid ⟨1, 1⟩ (.integerOutOfRange s))), ⟨limits, src, true⟩)) ↔
      Integer.ofInt? (Integer.ofDigits s.toList) = none := by
  obtain ⟨edge, -, hlexeme⟩ := lexeme_of_digits limits hne hs
  have hstep : (ofText limits s).step = (some ((ofText limits s).source.lexeme limits).1,
      ⟨limits, ((ofText limits s).source.lexeme limits).2,
        isLast ((ofText limits s).source.lexeme limits).1⟩) := rfl
  rw [hstep, hlexeme]
  unfold Scan.integer
  rw [String.ofList_toList]
  cases Integer.ofInt? (Integer.ofDigits s.toList) with
  | none => exact ⟨fun _ => rfl, fun _ => ⟨_, rfl⟩⟩
  | some m =>
    refine ⟨?_, fun h => absurd h (by simp)⟩
    rintro ⟨src, h⟩
    exact absurd (Prod.mk.inj h).1 (by simp [Except.map])

end Lexer

namespace Integer

/-- A cast to an integer reads a text, or refuses it. -/
theorem cast_eq (s : String) : ((Value.str s).cast .int = .error (.malformedCast s .int) ∧
      read? s = none) ∨
    ∃ n, (Value.str s).cast .int = .ok (.int n) ∧ read? s = some n := by
  show (Value.ofText s .int .int (read? s) = _ ∧ _) ∨
    ∃ n, Value.ofText s .int .int (read? s) = _ ∧ _
  cases read? s with
  | none => exact .inl ⟨rfl, rfl⟩
  | some n => exact .inr ⟨n, rfl, rfl⟩

/-- A cast gives an integer exactly if that is what is read. -/
theorem cast_eq_ok_iff : (Value.str s).cast .int = .ok (.int n) ↔ read? s = some n := by
  rcases cast_eq s with ⟨hcast, hread⟩ | ⟨m, hcast, hread⟩
  · rw [hcast, hread]
    simp
  · rw [hcast, hread]
    simp

/-- A cast fails exactly if nothing is read. -/
theorem cast_eq_error_iff :
    (Value.str s).cast .int = .error (.malformedCast s .int) ↔ read? s = none := by
  rcases cast_eq s with ⟨hcast, hread⟩ | ⟨m, hcast, hread⟩
  · exact ⟨fun _ => hread, fun _ => hcast⟩
  · rw [hcast, hread]
    simp

/-- The readers of decimal text and the writer agree. A text is cast to the integer that it denotes
as a numeral, if that fits in 32 bits, and to none otherwise. Every integer can be cast to a text
and back. A text that consists of digits is lexed to the integer that it is cast to, or refused at
its start if there is none, and the token is written as the text without its leading zeros. -/
theorem numerals_agree :
    (∀ (s : String) (n : Int32),
      (Value.str s).cast .int = .ok (.int n) ↔ Denotes s.toList n.toInt) ∧
    (∀ s : String, (Value.str s).cast .int = .error (.malformedCast s .int) ↔
      ¬∃ z, Denotes s.toList z ∧ -2147483648 ≤ z ∧ z ≤ 2147483647) ∧
    (∀ n : Int32, ((Value.int n).cast .str).bind (·.cast .int) = .ok (.int n)) ∧
    ∀ (limits : Limits) (s : String), s ≠ "" → (∀ d ∈ s.toList, d.isDigit = true) →
      (∀ n : Int32,
        (∃ ls, Lexer.Yields (.ofText limits s) ls ∧ ls.map (·.token) = [.int n, .endOfFile]) ↔
          (Value.str s).cast .int = .ok (.int n)) ∧
      ((∃ src, (Lexer.ofText limits s).step =
          (some (.error (.invalid ⟨1, 1⟩ (.integerOutOfRange s))), ⟨limits, src, true⟩)) ↔
        ∃ e, (Value.str s).cast .int = .error e) ∧
      ∀ (n : Int32) (ls : List Lexeme), Lexer.Yields (.ofText limits s) ls →
        ls.map (·.token) = [.int n, .endOfFile] →
          (Token.int n).text = String.ofList (stripped s.toList) := by
  refine ⟨fun s n => cast_eq_ok_iff.trans read?_eq_some_iff,
    fun s => cast_eq_error_iff.trans read?_eq_none_iff,
    fun n => cast_eq_ok_iff.mpr (read?_text n), fun limits s hne hs => ⟨fun n => ?_, ?_, ?_⟩⟩
  · rw [Lexer.yields_digits hne hs, cast_eq_ok_iff, read?_of_digits hne hs]
  · rw [Lexer.step_digits hne hs, ← read?_of_digits hne hs, ← cast_eq_error_iff]
    refine ⟨fun h => ⟨_, h⟩, ?_⟩
    rintro ⟨e, he⟩
    rcases cast_eq s with ⟨hcast, -⟩ | ⟨m, hcast, -⟩
    · exact hcast
    · exact absurd (he.symm.trans hcast) (by simp)
  · intro n ls hyields htokens
    have hfits := (Lexer.yields_digits hne hs).mp ⟨ls, hyields, htokens⟩
    exact text_of_digits (toInt_of_ofInt? hfits) hs

/-- A text of digits with leading zeros is lexed to an integer that is written without them, and one
that is greater than the greatest integer is refused at its start. -/
theorem numerals_agree_digits :
    (∃ ls, Lexer.Yields (.ofText .standard "007") ls ∧
      ls.map (·.token) = [.int 7, .endOfFile] ∧ (Token.int 7).text = "7") ∧
    ∃ src, (Lexer.ofText .standard "2147483648").step =
      (some (.error (.invalid ⟨1, 1⟩ (.integerOutOfRange "2147483648"))),
        ⟨.standard, src, true⟩) := by
  have hne : "007" ≠ "" := by simp
  have hne' : "2147483648" ≠ "" := by simp
  have hdigits : ∀ d ∈ "007".toList, d.isDigit = true := by simp
  have hdigits' : ∀ d ∈ "2147483648".toList, d.isDigit = true := by simp
  obtain ⟨hlexed, -, hwritten⟩ := numerals_agree.2.2.2 .standard "007" hne hdigits
  obtain ⟨-, hrefused, -⟩ := numerals_agree.2.2.2 .standard "2147483648" hne' hdigits'
  have hread : read? "007" = some 7 := (read?_of_digits hne hdigits).trans (by decide)
  have hread' : read? "2147483648" = none := (read?_of_digits hne' hdigits').trans (by decide)
  obtain ⟨ls, hyields, htokens⟩ := (hlexed 7).mpr (cast_eq_ok_iff.mpr hread)
  exact ⟨⟨ls, hyields, htokens, hwritten 7 ls hyields htokens⟩,
    hrefused.mpr ⟨_, cast_eq_error_iff.mpr hread'⟩⟩

/-- A sign may stand in front of zeros, and the least integer has one more than the greatest. -/
example : (Value.str "-002147483648").cast .int = .ok (.int (-2147483648)) := by rfl

end Integer

end Brisk
