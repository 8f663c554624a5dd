import Brisk.Number.Decimal
import Brisk.Proofs.Number.Shortest
import Brisk.Proofs.Token.Rendering
import Mathlib.Data.List.Basic

/-!
# Floats as literals

Different doubles are written as different literals (`Decimal.literal_injective`). A double is made
up of its parts (`Binary.toNat_toBits`). What is written of them is a sign and a magnitude, and the
text of a magnitude denotes the shortest decimal (`Decimal.magnitude_denotes`), which belongs to no
other double.

The characters of such a literal are few (`Decimal.mem_literal`), and some of them stands in no
integer (`Decimal.exists_mark_literal`).
-/

namespace Brisk

/-! ## Parts of doubles -/

namespace Binary

/-- The bit of a sign. -/
def signBits (negative : Bool) : Nat := if negative then 2 ^ 63 else 0

/-- The bits of a double that has given parts. -/
def Parts.bits : Parts → Nat
  | .nan => infinityBits + 2 ^ 51
  | .infinite negative => signBits negative + infinityBits
  | .finite negative m q => signBits negative + (q - leastExponent).toNat * 2 ^ 52 + m

/-- The bit of the sign is the first one. -/
theorem signBits_eq {bits : Nat} (h : bits < 2 ^ 64) :
    signBits (bits / 2 ^ 63 == 1) = bits / 2 ^ 63 * 2 ^ 63 := by
  unfold signBits
  split
  next hone => rw [eq_of_beq hone, one_mul]
  next hne =>
    have hne' : bits / 2 ^ 63 ≠ 1 := fun hone => hne (beq_iff_eq.mpr hone)
    omega

/-- There is only one double that is not a number. -/
theorem toNat_toBits_of_nan {x : Float} (hbiased : x.toBits.toNat / 2 ^ 52 % 2 ^ 11 = 2047)
    (hfraction : x.toBits.toNat % 2 ^ 52 ≠ 0) : x.toBits.toNat = infinityBits + 2 ^ 51 := by
  have hvalid : Float.Model.Format.binary64.Valid x.toBits.toBitVec := x.toModel.valid
  generalize x.toBits = bits at hvalid hbiased hfraction
  -- Of the bits of which the exponent is all ones and the fraction is not zero, one choice is
  -- valid.
  have hbits := hvalid.eq_packedNaN
    (BitVec.eq_of_toNat_eq (by
      simpa [Float.Model.UnpackedFloat.unpackExponent, Nat.shiftRight_eq_div_pow] using hbiased))
    (fun hzero => hfraction (by
      simpa [Float.Model.UnpackedFloat.unpackMantissa] using congrArg BitVec.toNat hzero))
  exact (congrArg BitVec.toNat hbits).trans (by decide +kernel)

/-- A double is made up of its parts. -/
theorem toNat_toBits (x : Float) : x.toBits.toNat = (parts x).bits := by
  have hlt : x.toBits.toNat < 2 ^ 64 := x.toBits.toNat_lt
  have hnan := @toNat_toBits_of_nan x
  unfold parts
  simp only [Nat.pow_eq]
  generalize x.toBits.toNat = bits at hlt hnan
  have hsign := signBits_eq hlt
  -- An exponent of all ones is left for what is not finite, and one of zeros for subnormal numbers.
  split
  next hbiased =>
    split
    · -- What is infinite or subnormal has its fraction alone.
      show bits = signBits (bits / 2 ^ 63 == 1) + infinityBits
      rw [hsign, infinityBits, Nat.pow_eq]
      omega
    next hfraction => exact hnan hbiased hfraction
  split
  · show bits = signBits (bits / 2 ^ 63 == 1) + (leastExponent - leastExponent).toNat * 2 ^ 52 + _
    rw [hsign]
    omega
  · show bits =
      signBits (bits / 2 ^ 63 == 1) + (leastExponent + _ - leastExponent).toNat * 2 ^ 52 + _
    rw [hsign]
    omega

/-- A float is made up of its sign, its mantissa and its exponent. -/
theorem parts_injective {x y : Float} (h : parts x = parts y) : x = y := by
  have hbits : x.toBits = y.toBits := by
    rw [← UInt64.toNat_inj, toNat_toBits, toNat_toBits, h]
  obtain ⟨⟨bits, valid⟩⟩ := x
  obtain ⟨⟨bits', valid'⟩⟩ := y
  obtain rfl : bits = bits' := hbits
  rfl

/-- The mantissa and the exponent of a float are canonical. -/
theorem canonical_of_parts {x : Float} {negative : Bool} {m : Nat} {q : Int}
    (h : parts x = .finite negative m q) : Canonical m q := by
  unfold parts at h
  simp only [Nat.pow_eq] at h
  generalize x.toBits.toNat = bits at h
  split at h
  · split at h <;> simp at h
  split at h
  · obtain ⟨-, rfl, rfl⟩ := Parts.finite.inj h
    exact ⟨by omega, le_rfl, fun hlt => absurd hlt (lt_irrefl _)⟩
  · obtain ⟨-, rfl, rfl⟩ := Parts.finite.inj h
    exact ⟨by omega, by omega, fun _ => by omega⟩

/-- The mantissa is zero only with the least exponent. -/
theorem Canonical.exponent_zero {m : Nat} {q : Int} (h : Canonical m q) (hm : m = 0) :
    q = leastExponent := by
  by_contra hne
  have hnormal := h.normal (lt_of_le_of_ne h.least_le (Ne.symm hne))
  omega

end Binary

/-! ## Digits -/

namespace Integer

/-- Further digits shift those in front of them to the left. -/
theorem ofDigits_append (ds es : List Char) :
    ofDigits (ds ++ es) = 10 ^ es.length * ofDigits ds + ofDigits es := by
  show Nat.ofDigitChars 10 (ds ++ es) 0 = _
  rw [Nat.ofDigitChars_append, Nat.ofDigitChars_eq_ofDigitChars_zero]
  rfl

/-- Zeros denote zero. -/
theorem ofDigits_zeros (n : Nat) : ofDigits (List.replicate n '0') = 0 :=
  Nat.ofDigitChars_replicate_zero

/-- An integer is written with digits and perhaps a sign. -/
theorem mem_toString {n : Int} {c : Char} (h : c ∈ (toString n).toList) :
    c = '-' ∨ c.isDigit = true := by
  have hdigits : ∀ k : Nat, c ∈ k.repr.toList → c.isDigit = true := by
    intro k hc
    rw [Nat.repr_eq_ofList_toDigits, String.toList_ofList] at hc
    exact Nat.isDigit_of_mem_toDigits (by decide) (by decide) hc
  rw [Int.toString_eq_repr, Int.repr_eq_if] at h
  split at h
  · exact .inr (hdigits _ h)
  · rw [String.toList_append, List.mem_append] at h
    rcases h with hsign | hdigit
    · exact .inl (List.mem_singleton.mp hsign)
    · exact .inr (hdigits _ hdigit)

/-- The digits of a number are read back to it. -/
theorem digits?_toDigits (n : Nat) : digits? ofDigits (Nat.toDigits 10 n) = some n := by
  have hdigits : (Nat.toDigits 10 n).all Char.isDigit = true :=
    List.all_eq_true.mpr fun d hd => Nat.isDigit_of_mem_toDigits (by decide) (by decide) hd
  unfold digits?
  rw [if_pos ⟨Nat.toDigits_ne_nil, hdigits⟩, ofDigits_toDigits]

/-- An integer is read from the text that it is written as. -/
theorem signed?_toString (n : Int) : signed? ofDigits (toString n).toList = some n := by
  rw [Int.toString_eq_repr, Int.repr_eq_if]
  split
  -- Digits alone, which have no sign in front.
  next hn =>
    rw [Nat.repr_eq_ofList_toDigits, String.toList_ofList]
    have hread := digits?_toDigits n.toNat
    have hdigits : ∀ d ∈ Nat.toDigits 10 n.toNat, d.isDigit = true :=
      fun d hd => Nat.isDigit_of_mem_toDigits (by decide) (by decide) hd
    have hvalue : (n.toNat : Int) = n := Int.toNat_of_nonneg hn
    unfold signed?
    split
    next hsign => exact absurd (hdigits '-' (hsign ▸ List.mem_cons_self)) (by decide)
    next hsign => exact absurd (hdigits '+' (hsign ▸ List.mem_cons_self)) (by decide)
    · rw [hread]
      exact congrArg some hvalue
  -- A minus sign, and the digits of what is left.
  next hn =>
    have hvalue : -((-n).toNat : Int) = n := by omega
    have hlist : ("-" ++ (-n).toNat.repr).toList = '-' :: Nat.toDigits 10 (-n).toNat := by
      rw [String.toList_append, Nat.repr_eq_ofList_toDigits, String.toList_ofList,
        String.toList_ofList]
      rfl
    rw [hlist, signed?, digits?_toDigits]
    exact congrArg some hvalue

end Integer

namespace Decimal

/-! ## What a text denotes -/

/-- The number that digits with a point among or behind them stand for. -/
def significand (cs : List Char) : ℚ :=
  let whole := cs.takeWhile Char.isDigit
  let fraction := (cs.dropWhile Char.isDigit).drop 1
  Integer.ofDigits (whole ++ fraction) * (10 : ℚ) ^ (-(fraction.length : Int))

/-- What a number without a sign stands for, with an exponent or without one. -/
inductive Denotes : List Char → ℚ → Prop where
  | positional {cs : List Char} (h : 'e' ∉ cs) : Denotes cs (significand cs)
  | scientific {cs : List Char} (h : 'e' ∉ cs) (lead : Int) :
      Denotes (cs ++ 'e' :: (toString lead).toList) (significand cs * (10 : ℚ) ^ lead)

/-- A text stands for one number only. -/
theorem Denotes.unique {cs : List Char} {x y : ℚ} (hx : Denotes cs x) (hy : Denotes cs y) :
    x = y := by
  obtain ⟨hcs⟩ | ⟨hcs, lead⟩ := hx
  · cases hy with
    | positional => rfl
    | scientific => exact absurd (List.mem_append_right _ List.mem_cons_self) hcs
  · generalize htext : _ ++ 'e' :: (toString lead).toList = text at hy
    cases hy with
    | positional htext' =>
      exact absurd (htext ▸ List.mem_append_right _ List.mem_cons_self) htext'
    | scientific hcs' lead' =>
      -- The mark stands nowhere else, so both texts are cut at the same place.
      have hexponent : 'e' ∉ (toString lead).toList := fun he =>
        absurd (Integer.mem_toString he) (by decide)
      obtain ⟨rfl, -, hlead⟩ := (List.append_cons_inj_of_notMem hcs hexponent).mp htext
      have hread := Integer.signed?_toString lead
      rw [hlead, Integer.signed?_toString] at hread
      rw [Option.some.inj hread]

section Shapes

variable {whole fraction : List Char}

/-- A significand without a point is an integer. -/
theorem significand_whole (h : ∀ d ∈ whole, d.isDigit = true) :
    significand whole = Integer.ofDigits whole := by
  have htake : (whole ++ []).takeWhile Char.isDigit = whole := by
    rw [List.takeWhile_append_of_pos h, List.takeWhile_nil, List.append_nil]
  have hdrop : (whole ++ []).dropWhile Char.isDigit = [] := List.dropWhile_append_of_pos h
  rw [List.append_nil] at htake hdrop
  unfold significand
  simp [htake, hdrop]

/-- The digits behind a point count less, by a power of ten for each of them. -/
theorem significand_point (h : ∀ d ∈ whole, d.isDigit = true) :
    significand (whole ++ '.' :: fraction) =
      Integer.ofDigits (whole ++ fraction) * (10 : ℚ) ^ (-(fraction.length : Int)) := by
  have htake : (whole ++ '.' :: fraction).takeWhile Char.isDigit = whole := by
    rw [List.takeWhile_append_of_pos h, List.takeWhile_cons_of_neg (by decide), List.append_nil]
  have hdrop : (whole ++ '.' :: fraction).dropWhile Char.isDigit = '.' :: fraction := by
    rw [List.dropWhile_append_of_pos h, List.dropWhile_cons_of_neg (by decide)]
  unfold significand
  rw [htake, hdrop, List.drop_one, List.tail_cons]

variable {ds : List Char} (hds : ∀ d ∈ ds, d.isDigit = true)
include hds

/-- Digits without an exponent stand for their number at the weight of the last one. -/
theorem significand_positional (k : Int) :
    significand (positional .literal ds k) = Integer.ofDigits ds * (10 : ℚ) ^ k := by
  unfold positional
  -- Zeros are put behind the digits.
  split
  next hk =>
    obtain ⟨n, rfl⟩ := Int.eq_ofNat_of_zero_le hk
    have hzeros : ∀ d ∈ ds ++ List.replicate n '0', d.isDigit = true := by
      intro d hd
      rcases List.mem_append.mp hd with hd | hd
      · exact hds d hd
      · rw [List.eq_of_mem_replicate hd]
        decide
    -- The zero behind the point takes back what it adds to the digits.
    rw [Int.toNat_natCast]
    show significand (ds ++ List.replicate n '0' ++ '.' :: ['0']) = _
    rw [significand_point hzeros, Integer.ofDigits_append, Integer.ofDigits_append,
      Integer.ofDigits_zeros, List.length_replicate]
    have hzero : Integer.ofDigits ['0'] = 0 := by decide
    rw [hzero, add_zero, add_zero, zpow_natCast, List.length_singleton, zpow_neg]
    push_cast
    ring
  -- The point stands within the digits, or in front of them with zeros between.
  next hk =>
    obtain ⟨n, hn⟩ : ∃ n : Nat, k = -(n : Int) := ⟨(-k).toNat, by omega⟩
    have hplaces : (-k).toNat = n := by omega
    simp only [hplaces]
    split
    next hlt =>
      rw [significand_point fun d hd => hds d (List.mem_of_mem_take hd), List.take_append_drop,
        List.length_drop, hn]
      congr 3
      omega
    next hge =>
      show significand (['0'] ++ '.' :: (List.replicate (n - ds.length) '0' ++ ds)) = _
      rw [significand_point (by simp), Integer.ofDigits_append, Integer.ofDigits_append,
        Integer.ofDigits_zeros, List.length_append, List.length_replicate, hn]
      have hzero : Integer.ofDigits ['0'] = 0 := by decide
      rw [hzero, Nat.sub_add_cancel (by omega)]
      simp

omit hds in
/-- The digits in front of an exponent, with a point behind the first if there are more. -/
def leading (ds : List Char) : List Char :=
  ds.take 1 ++ (if (ds.drop 1).isEmpty then [] else '.' :: ds.drop 1)

/-- The first of some digits has the weight of the number. -/
theorem significand_leading (hne : ds ≠ []) :
    significand (leading ds) = Integer.ofDigits ds * (10 : ℚ) ^ (1 - ds.length : Int) := by
  obtain ⟨d, ds, rfl⟩ := List.exists_cons_of_ne_nil hne
  have hfraction : (1 - (d :: ds).length : Int) = -(ds.length : Int) := by
    rw [List.length_cons]
    push_cast
    ring
  rw [hfraction]
  -- A single digit has no point.
  cases ds with
  | nil =>
    show significand [d] = _
    rw [significand_whole hds, List.length_nil, Nat.cast_zero, neg_zero, zpow_zero, mul_one]
  | cons d' ds =>
    have hd : ∀ e ∈ [d], e.isDigit = true := by
      intro e he
      obtain rfl := List.mem_singleton.mp he
      exact hds e List.mem_cons_self
    show significand ([d] ++ '.' :: d' :: ds) = _
    rw [significand_point hd]
    rfl

end Shapes

/-! ## Magnitudes -/

/-- The characters of floats that are written as literals. -/
def LiteralChar (c : Char) : Prop :=
  c.isDigit = true ∨ c ∈ ['-', '.', 'e', 'N', 'a', 'i', 'n', 'f']

instance (c : Char) : Decidable (LiteralChar c) :=
  inferInstanceAs (Decidable (_ ∨ _))

/-- What the magnitude of a double is written as: zero or the shortest decimal. -/
def shown (m : Nat) (q : Int) : ℚ := if m = 0 then 0 else (shortest m q).value

section Magnitudes

variable {ds : List Char} {k : Int} {c : Char}

/-- Written with a point in its place, a number consists of its digits, zeros and the point. -/
theorem mem_positional (h : c ∈ positional .literal ds k) : c ∈ ds ∨ c = '0' ∨ c = '.' := by
  unfold positional at h
  -- The digits with zeros and a point behind.
  split at h
  · simp only [Style.literal, List.mem_append, List.mem_replicate, List.mem_cons,
      List.not_mem_nil, or_false] at h
    tauto
  · simp only at h
    split at h
    · -- The digits with a point between them.
      rcases List.mem_append.mp h with hd | hd
      · exact .inl (List.mem_of_mem_take hd)
      · rcases List.mem_cons.mp hd with hd | hd
        · exact .inr (.inr hd)
        · exact .inl (List.mem_of_mem_drop hd)
    · -- The digits behind a point and zeros.
      simp only [List.mem_append, List.mem_replicate, List.mem_cons, List.not_mem_nil,
        or_false] at h
      tauto

/-- Written with a point behind the first digit, a number consists of its digits and the point. -/
theorem mem_leading (h : c ∈ leading ds) : c ∈ ds ∨ c = '.' := by
  unfold leading at h
  rcases List.mem_append.mp h with hd | hd
  · exact .inl (List.mem_of_mem_take hd)
  · split at hd
    · exact absurd hd List.not_mem_nil
    · rcases List.mem_cons.mp hd with hd | hd
      · exact .inr hd
      · exact .inl (List.mem_of_mem_drop hd)

/-- A point always shows that a number is no integer. -/
theorem point_mem_positional : '.' ∈ positional .literal ds k := by
  unfold positional
  split
  · exact List.mem_append_right _ List.mem_cons_self
  · simp only
    split
    · exact List.mem_append_right _ List.mem_cons_self
    · simp

/-- With an exponent, a number is written as its leading digits and the exponent behind them. -/
theorem scientific_eq (lead : Int) :
    scientific ds lead = leading ds ++ 'e' :: (toString lead).toList := rfl

/-- The digits of a magnitude, and whether it is laid out with an exponent. -/
theorem magnitude_cases (m : Nat) (q : Int) : ∃ ds k,
    (∀ d ∈ ds, d.isDigit = true) ∧ ds ≠ [] ∧ Integer.ofDigits ds * (10 : ℚ) ^ k = shown m q ∧
      (magnitude .literal m q = positional .literal ds k ∨
        magnitude .literal m q = scientific ds (k + ds.length - 1)) := by
  unfold magnitude shown
  split
  · -- Zero is shown as such.
    exact ⟨['0'], 0, by simp, List.cons_ne_nil _ _, by simp [Integer.ofDigits], .inl rfl⟩
  · -- The shortest digits are shown in one of the two forms.
    refine ⟨Nat.toDigits 10 (shortest m q).digits, (shortest m q).exponent,
      fun d hd => Nat.isDigit_of_mem_toDigits (by decide) (by decide) hd, Nat.toDigits_ne_nil,
      ?_, ?_⟩
    · rw [Integer.ofDigits_toDigits]
      rfl
    · simp only
      split
      · exact .inl rfl
      · exact .inr rfl

/-- The text of a magnitude denotes the shortest decimal. -/
theorem magnitude_denotes (m : Nat) (q : Int) : Denotes (magnitude .literal m q) (shown m q) := by
  obtain ⟨ds, k, hds, hne, hvalue, heq | heq⟩ := magnitude_cases m q
  · -- Without an exponent, there is no letter in the text.
    rw [heq, ← hvalue, ← significand_positional hds]
    refine .positional fun he => ?_
    rcases mem_positional he with hd | hd | hd
    · exact absurd (hds _ hd) (by decide)
    · exact absurd hd (by decide)
    · exact absurd hd (by decide)
  · -- In front of the exponent, there is no letter either.
    have hleading : 'e' ∉ leading ds := by
      intro he
      rcases mem_leading he with hd | hd
      · exact absurd (hds _ hd) (by decide)
      · exact absurd hd (by decide)
    -- The exponent counts from the first digit on.
    have hshown : shown m q = significand (leading ds) * (10 : ℚ) ^ (k + ds.length - 1) := by
      rw [← hvalue, significand_leading hds hne, mul_assoc, ← zpow_add₀ (by norm_num)]
      congr 2
      ring
    rw [heq, scientific_eq, hshown]
    exact .scientific hleading _

/-- A magnitude starts with a digit. -/
theorem magnitude_head (m : Nat) (q : Int) :
    ∃ d cs, magnitude .literal m q = d :: cs ∧ d.isDigit = true := by
  obtain ⟨ds, k, hds, hne, -, heq | heq⟩ := magnitude_cases m q
  · rw [heq]
    -- The first digit comes first, unless zeros are put in front.
    obtain ⟨d, ds, rfl⟩ := List.exists_cons_of_ne_nil hne
    have hd := hds d List.mem_cons_self
    unfold positional
    split
    · exact ⟨d, _, rfl, hd⟩
    simp only
    split
    next hlt =>
      obtain ⟨n, hn⟩ : ∃ n, (d :: ds).length - (-k).toNat = n + 1 :=
        ⟨(d :: ds).length - (-k).toNat - 1, by omega⟩
      rw [hn]
      exact ⟨d, _, rfl, hd⟩
    · exact ⟨'0', _, rfl, by decide⟩
  · rw [heq]
    -- The first digit comes first.
    obtain ⟨d, ds, rfl⟩ := List.exists_cons_of_ne_nil hne
    exact ⟨d, _, rfl, hds d List.mem_cons_self⟩

/-- The magnitude of a float consists of characters of a literal. -/
theorem mem_magnitude {m : Nat} {q : Int} (h : c ∈ magnitude .literal m q) : LiteralChar c := by
  obtain ⟨ds, k, hds, -, -, heq | heq⟩ := magnitude_cases m q
  · rw [heq] at h
    -- Digits, zeros and a point.
    rcases mem_positional h with hd | rfl | rfl
    · exact .inl (hds c hd)
    · decide
    · decide
  · rw [heq, scientific_eq] at h
    -- Digits and a point, and an exponent with a sign.
    rcases List.mem_append.mp h with hd | hd
    · rcases mem_leading hd with hd | rfl
      · exact .inl (hds c hd)
      · decide
    rcases List.mem_cons.mp hd with rfl | hd
    · decide
    rcases Integer.mem_toString hd with rfl | hd
    · decide
    · exact .inl hd

/-- A point or an exponent shows that a magnitude is no integer. -/
theorem exists_mark_magnitude (m : Nat) (q : Int) :
    '.' ∈ magnitude .literal m q ∨ 'e' ∈ magnitude .literal m q := by
  obtain ⟨ds, k, -, -, -, heq | heq⟩ := magnitude_cases m q
  · rw [heq]
    exact .inl point_mem_positional
  · rw [heq, scientific_eq]
    exact .inr (List.mem_append_right _ List.mem_cons_self)

/-- Magnitudes that are written alike are the same. -/
theorem magnitude_injective {m m' : Nat} {q q' : Int} (h : Binary.Canonical m q)
    (h' : Binary.Canonical m' q') (heq : magnitude .literal m q = magnitude .literal m' q') :
    m = m' ∧ q = q' := by
  have hshown : shown m q = shown m' q' :=
    (magnitude_denotes m q).unique (heq ▸ magnitude_denotes m' q')
  -- No other double is shown as zero.
  unfold shown at hshown
  split at hshown
  next hm =>
    split at hshown
    next hm' => exact ⟨hm.trans hm'.symm, (h.exponent_zero hm).trans (h'.exponent_zero hm').symm⟩
    next hm' => exact absurd hshown (shortest_value_pos h' hm').ne
  next hm =>
    split at hshown
    next hm' => exact absurd hshown (shortest_value_pos h hm).ne'
    next hm' => exact eq_of_shortest_value h h' hm hm' hshown

end Magnitudes

/-! ## Literals -/

/-- Whether a minus sign is written in front of a double. -/
def isSigned : Binary.Parts → Bool
  | .nan => false
  | .infinite negative | .finite negative _ _ => negative

/-- What is written of a double behind its sign. -/
def unsigned : Binary.Parts → List Char
  | .nan => ['N', 'a', 'N']
  | .infinite _ => ['i', 'n', 'f']
  | .finite _ m q => magnitude .literal m q

/-- A float literal is a sign and the magnitude. -/
theorem toList_literal (x : Float) :
    (literal x).toList = (if isSigned (Binary.parts x) then ['-'] else []) ++
      unsigned (Binary.parts x) := by
  unfold literal write
  cases Binary.parts x with
  | nan => rfl
  | infinite negative => cases negative <;> rfl
  | finite negative m q => exact String.toList_ofList

/-- A magnitude does not start with a sign. -/
theorem unsigned_head (p : Binary.Parts) : ∃ c cs, unsigned p = c :: cs ∧ c ≠ '-' := by
  cases p with
  | nan => exact ⟨_, _, rfl, by decide⟩
  | infinite negative => exact ⟨_, _, rfl, by decide⟩
  | finite negative m q =>
    obtain ⟨d, cs, heq, hd⟩ := magnitude_head m q
    refine ⟨d, cs, heq, ?_⟩
    rintro rfl
    exact absurd hd (by decide)

/-- The sign of a literal can be told from what follows. -/
theorem sign_append_injective {negative negative' : Bool} {p p' : Binary.Parts}
    (h : (if negative then ['-'] else []) ++ unsigned p =
      (if negative' then ['-'] else []) ++ unsigned p') :
    negative = negative' ∧ unsigned p = unsigned p' := by
  obtain ⟨c, cs, hp, hc⟩ := unsigned_head p
  obtain ⟨c', cs', hp', hc'⟩ := unsigned_head p'
  rw [hp, hp'] at h ⊢
  -- Only a minus sign is a sign, and what is behind it starts with another character.
  cases negative with
  | false =>
    cases negative' with
    | false => exact ⟨rfl, h⟩
    | true => exact absurd (List.cons.inj h).1 hc
  | true =>
    cases negative' with
    | false => exact absurd (List.cons.inj h).1.symm hc'
    | true => exact ⟨rfl, (List.cons.inj h).2⟩

/-- Different doubles are written as different literals. -/
theorem literal_injective {x y : Float} (h : literal x = literal y) : x = y := by
  have hlist := congrArg String.toList h
  rw [toList_literal, toList_literal] at hlist
  obtain ⟨hsign, hrest⟩ := sign_append_injective hlist
  -- Of what may stand behind the sign, only a magnitude starts with a digit.
  have hmagnitude : ∀ m q c cs, unsigned (.finite false m q) = c :: cs → c.isDigit = true := by
    intro m q c cs heq
    obtain ⟨d, ds, heq', hd⟩ := magnitude_head m q
    rw [(List.cons.inj (heq.symm.trans heq')).1]
    exact hd
  refine Binary.parts_injective ?_
  -- What stands behind the sign tells the three kinds of doubles apart.
  cases hx : Binary.parts x with
  | nan =>
    cases hy : Binary.parts y with
    | nan => rfl
    | infinite negative =>
      rw [hx, hy] at hrest
      exact absurd (List.cons.inj hrest).1 (by decide)
    | finite negative m q =>
      rw [hx, hy] at hrest
      exact absurd (hmagnitude m q _ _ hrest.symm) (by decide)
  | infinite negative =>
    cases hy : Binary.parts y with
    | nan =>
      rw [hx, hy] at hrest
      exact absurd (List.cons.inj hrest).1 (by decide)
    | infinite negative' =>
      rw [hx, hy] at hsign
      exact congrArg Binary.Parts.infinite hsign
    | finite negative' m q =>
      rw [hx, hy] at hrest
      exact absurd (hmagnitude m q _ _ hrest.symm) (by decide)
  | finite negative m q =>
    cases hy : Binary.parts y with
    | nan =>
      rw [hx, hy] at hrest
      exact absurd (hmagnitude m q _ _ hrest) (by decide)
    | infinite negative' =>
      rw [hx, hy] at hrest
      exact absurd (hmagnitude m q _ _ hrest) (by decide)
    | finite negative' m' q' =>
      -- The magnitude is read back to the one value that is shown with it.
      rw [hx, hy] at hsign hrest
      obtain ⟨rfl, rfl⟩ := magnitude_injective (Binary.canonical_of_parts hx)
        (Binary.canonical_of_parts hy) hrest
      exact congrArg (Binary.Parts.finite · m q) hsign

/-- The characters of literals are few. -/
theorem mem_literal {x : Float} {c : Char} (h : c ∈ (literal x).toList) : LiteralChar c := by
  rw [toList_literal] at h
  -- The minus sign, or a character of what is behind it.
  rcases List.mem_append.mp h with hc | hc
  · split at hc
    · rw [List.mem_singleton.mp hc]
      decide
    · exact absurd hc List.not_mem_nil
  cases hx : Binary.parts x with
  | nan =>
    rw [hx] at hc
    have hall : ['N', 'a', 'N'].all (fun d => decide (LiteralChar d)) = true := by decide
    exact of_decide_eq_true (List.all_eq_true.mp hall c hc)
  | infinite negative =>
    rw [hx] at hc
    have hall : ['i', 'n', 'f'].all (fun d => decide (LiteralChar d)) = true := by decide
    exact of_decide_eq_true (List.all_eq_true.mp hall c hc)
  | finite negative m q =>
    rw [hx] at hc
    exact mem_magnitude hc

/-- Some character of a literal is in no integer. -/
theorem exists_mark_literal (x : Float) :
    ∃ c ∈ (literal x).toList, c ≠ '-' ∧ c.isDigit = false := by
  rw [toList_literal]
  cases Binary.parts x with
  | nan => exact ⟨'N', List.mem_append_right _ (by decide : 'N' ∈ ['N', 'a', 'N']), by decide⟩
  | infinite negative =>
    exact ⟨'i', List.mem_append_right _ (by decide : 'i' ∈ ['i', 'n', 'f']), by decide⟩
  | finite negative m q =>
    rcases exists_mark_magnitude m q with hmark | hmark
    · exact ⟨'.', List.mem_append_right _ hmark, by decide⟩
    · exact ⟨'e', List.mem_append_right _ hmark, by decide⟩

end Decimal

end Brisk
