import Brisk.Number.Shortest
import Mathlib.Algebra.Order.Field.Power
import Mathlib.Algebra.Order.Field.Rat
import Mathlib.Tactic.Linarith
import Mathlib.Tactic.NormNum
import Mathlib.Tactic.Positivity
import Mathlib.Tactic.Ring

/-!
# Shortest decimals tell doubles apart

The decimal that is chosen for a double lies in the interval of the numbers that round to it
(`Decimal.shortest_mem`), and no number lies in the intervals of two doubles
(`Decimal.Interval.eq_of_mem`). So different doubles have different shortest decimals.

That a decimal is found at all is a matter of width: a grid on which the double has seventeen digits
is finer than the interval is wide, so a point of it lies between the ends.
-/

namespace Brisk

/-- Whether `m · 2 ^ q` is how a double is taken apart: the mantissa has 53 binary digits, or fewer
if the exponent is the least one. -/
structure Binary.Canonical (m : Nat) (q : Int) : Prop where
  mantissa_lt : m < 2 ^ 53
  least_le : leastExponent ≤ q
  normal : leastExponent < q → 2 ^ 52 ≤ m

namespace Decimal

/-- The number that a decimal is. -/
def value (d : Decimal) : ℚ := d.digits * (10 : ℚ) ^ d.exponent

/-! ## Units and grids -/

/-- A power with an integer as its exponent is a quotient of powers with natural ones. -/
theorem zpow_mul_pow {b : ℚ} (hb : b ≠ 0) (n : Int) :
    b ^ n * b ^ (-n).toNat = b ^ n.toNat := by
  rw [← zpow_natCast, ← zpow_natCast, ← zpow_add₀ hb]
  congr 1
  omega

/-- The fraction that a unit is of a point of the grid. -/
theorem unitRatio_spec (q k : Int) : 0 < (unitRatio q k).1 ∧ 0 < (unitRatio q k).2 ∧
    ((unitRatio q k).1 : ℚ) * (10 : ℚ) ^ k = (unitRatio q k).2 * (2 : ℚ) ^ q := by
  refine ⟨?_, ?_, ?_⟩
  · simp [unitRatio, Nat.pow_eq]
  · simp [unitRatio, Nat.pow_eq]
  · have htwo := zpow_mul_pow (two_ne_zero : (2 : ℚ) ≠ 0) q
    have hten := zpow_mul_pow (by norm_num : (10 : ℚ) ≠ 0) k
    simp only [unitRatio, Nat.pow_eq, Nat.cast_mul, Nat.cast_pow, Nat.cast_ofNat]
    calc (2 : ℚ) ^ q.toNat * 10 ^ (-k).toNat * 10 ^ k
        = 2 ^ q.toNat * (10 ^ k * 10 ^ (-k).toNat) := by ring
      _ = (2 ^ q * 2 ^ (-q).toNat) * 10 ^ k.toNat := by rw [hten, htwo]
      _ = 2 ^ (-q).toNat * 10 ^ k.toNat * 2 ^ q := by ring

namespace Interval

/-- Whether a number lies in an interval that counts in units of `2 ^ q`. The ends only belong to
it if it is closed. -/
structure Mem (i : Interval) (q : Int) (x : ℚ) : Prop where
  low_le : i.low * (2 : ℚ) ^ q ≤ x
  le_high : x ≤ i.high * (2 : ℚ) ^ q
  inner : i.closed = false → i.low * (2 : ℚ) ^ q < x ∧ x < i.high * (2 : ℚ) ^ q

section Grid

variable {q k : Int} {num den : Nat} (hden : 0 < den)
  (hratio : (num : ℚ) * (10 : ℚ) ^ k = den * (2 : ℚ) ^ q)
include hratio

/-- In units of the common denominator, a multiple of a power of two is a multiple of a power of
ten. -/
theorem units_mul (a : Nat) : (den : ℚ) * (a * (2 : ℚ) ^ q) = a * num * (10 : ℚ) ^ k := by
  rw [mul_assoc, hratio]
  ring

include hden

/-- Points of the grid are compared with units without fractions. -/
theorem le_point_iff (a d : Nat) :
    (a : ℚ) * (2 : ℚ) ^ q ≤ d * (10 : ℚ) ^ k ↔ a * num ≤ d * den := by
  have hpos : (0 : ℚ) < den := by exact_mod_cast hden
  have hten : (0 : ℚ) < (10 : ℚ) ^ k := by positivity
  have hpoint : (den : ℚ) * (d * (10 : ℚ) ^ k) = d * den * (10 : ℚ) ^ k := by ring
  rw [← mul_le_mul_iff_right₀ hpos, units_mul hratio, hpoint, mul_le_mul_iff_left₀ hten]
  exact_mod_cast Iff.rfl

/-- Units are compared with the points of the grid without fractions. -/
theorem point_le_iff (a d : Nat) :
    d * (10 : ℚ) ^ k ≤ (a : ℚ) * (2 : ℚ) ^ q ↔ d * den ≤ a * num := by
  have hpos : (0 : ℚ) < den := by exact_mod_cast hden
  have hten : (0 : ℚ) < (10 : ℚ) ^ k := by positivity
  have hpoint : (den : ℚ) * (d * (10 : ℚ) ^ k) = d * den * (10 : ℚ) ^ k := by ring
  rw [← mul_le_mul_iff_right₀ hpos, units_mul hratio, hpoint, mul_le_mul_iff_left₀ hten]
  exact_mod_cast Iff.rfl

/-- A point of the grid lies in an interval if it is found to. -/
theorem contains_iff (i : Interval) (d : Nat) :
    i.contains num (d * den) = true ↔ i.Mem q (d * (10 : ℚ) ^ k) := by
  -- The bounds are compared with the point in both directions.
  have hlow := le_point_iff hden hratio i.low d
  have hhigh := point_le_iff hden hratio i.high d
  have hlow' := not_congr (point_le_iff hden hratio i.low d)
  have hhigh' := not_congr (le_point_iff hden hratio i.high d)
  rw [not_le, not_le] at hlow' hhigh'
  unfold contains
  cases hclosed : i.closed with
  -- A closed interval contains its bounds.
  | true =>
    rw [if_pos rfl, Bool.and_eq_true, decide_eq_true_iff, decide_eq_true_iff, ← hlow, ← hhigh]
    constructor
    · rintro ⟨h, h'⟩
      exact ⟨h, h', fun hopen => absurd (hclosed.symm.trans hopen) (by decide)⟩
    · intro h
      exact ⟨h.low_le, h.le_high⟩
  -- An open interval does not contain its bounds.
  | false =>
    rw [if_neg Bool.false_ne_true, Bool.and_eq_true, decide_eq_true_iff, decide_eq_true_iff,
      ← hlow', ← hhigh']
    constructor
    · rintro ⟨h, h'⟩
      exact ⟨h.le, h'.le, fun _ => ⟨h, h'⟩⟩
    · intro h
      exact h.inner hclosed

end Grid

/-- The point of a grid that is chosen lies in the interval. -/
theorem mem_of_onGrid? {i : Interval} {q k : Int} {d : Decimal} (h : i.onGrid? q k = some d) :
    i.Mem q d.value := by
  obtain ⟨-, hden, hratio⟩ := unitRatio_spec q k
  have hmem := contains_iff hden hratio i
  unfold onGrid? at h
  generalize unitRatio q k = ratio at h hmem
  obtain ⟨num, den⟩ := ratio
  simp only at h hmem
  -- The two points next to the middle are the only candidates.
  generalize i.middle * num / den = below at h
  split at h
  next hboth =>
    obtain ⟨hlower, hupper⟩ := Bool.and_eq_true_iff.mp hboth
    obtain rfl := Option.some.inj h
    unfold value
    simp only
    split
    · exact (hmem below).mp hlower
    · exact (hmem (below + 1)).mp hupper
  split at h
  next hlower =>
    obtain rfl := Option.some.inj h
    exact (hmem below).mp hlower
  split at h
  next hupper =>
    obtain rfl := Option.some.inj h
    exact (hmem (below + 1)).mp hupper
  · exact absurd h (by simp)

/-- On a grid that is finer than an interval is wide, one of the two points next to the middle lies
in the interval. -/
theorem onGrid?_ne_none {i : Interval} (hlow : i.low < i.middle) (hhigh : i.middle < i.high)
    {q k : Int} (hwidth : (10 : ℚ) ^ k < (i.high - i.low) * (2 : ℚ) ^ q) :
    i.onGrid? q k ≠ none := by
  obtain ⟨-, hden, hratio⟩ := unitRatio_spec q k
  have hmem := contains_iff hden hratio i
  have hle := point_le_iff hden hratio i.middle
  have hgt := le_point_iff hden hratio i.middle
  unfold onGrid?
  generalize unitRatio q k = ratio at hden hmem hle hgt
  obtain ⟨num, den⟩ := ratio
  simp only at hden hmem hle hgt ⊢
  generalize hbelow : i.middle * num / den = below
  have htwo : (0 : ℚ) < (2 : ℚ) ^ q := by positivity
  -- The bounds enclose the middle.
  have hlow' : (i.low : ℚ) * 2 ^ q < i.middle * 2 ^ q :=
    mul_lt_mul_of_pos_right (by exact_mod_cast hlow) htwo
  have hhigh' : (i.middle : ℚ) * 2 ^ q < i.high * 2 ^ q :=
    mul_lt_mul_of_pos_right (by exact_mod_cast hhigh) htwo
  have hpoint : (below : ℚ) * 10 ^ k ≤ i.middle * 2 ^ q := by
    rw [hle, ← hbelow]
    exact Nat.div_mul_le_self _ _
  have hnext : (i.middle : ℚ) * 2 ^ q < (below + 1 : ℕ) * 10 ^ k := by
    rw [← not_le, hle, ← hbelow, not_le]
    exact Nat.lt_mul_of_div_lt (Nat.lt_succ_self _) hden
  have hfound : i.contains num (below * den) = true ∨
      i.contains num ((below + 1) * den) = true := by
    rw [hmem, hmem]
    by_contra hneither
    rw [not_or] at hneither
    obtain ⟨hlower, hupper⟩ := hneither
    -- With both points outside, the ends would lie between them.
    have hends : (below : ℚ) * 10 ^ k ≤ i.low * 2 ^ q := by
      by_contra hinside
      rw [not_le] at hinside
      have hbehind := hpoint.trans_lt hhigh'
      exact hlower ⟨hinside.le, hbehind.le, fun _ => ⟨hinside, hbehind⟩⟩
    have hends' : (i.high : ℚ) * 2 ^ q ≤ (below + 1 : ℕ) * 10 ^ k := by
      by_contra hinside
      rw [not_le] at hinside
      have hfront := hlow'.trans hnext
      exact hupper ⟨hfront.le, hinside.le, fun _ => ⟨hfront, hinside⟩⟩
    push_cast at hends'
    linarith
  obtain hlower | hupper := hfound
  · cases hupper : i.contains num ((below + 1) * den) <;> simp [hlower]
  · cases hlower : i.contains num (below * den) <;> simp [hupper]

/-! ## Intervals of doubles -/

section Around

variable {m : Nat} {q : Int}

/-- The interval of a double other than zero, as rational numbers. -/
theorem around_spec (hm : m ≠ 0) : (around m q).low < (around m q).middle ∧
    (around m q).middle < (around m q).high ∧
    ((around m q).low : ℚ) = 4 * m - (if m = 2 ^ 52 ∧ Binary.leastExponent < q then 1 else 2) ∧
    ((around m q).high : ℚ) = 4 * m + 2 ∧ ((around m q).closed = true ↔ m % 2 = 0) := by
  unfold around
  simp only [Nat.pow_eq]
  refine ⟨?_, by omega, ?_, by push_cast; ring, by simp⟩
  · split <;> omega
  · split
    · rw [Nat.cast_sub (by omega)]
      push_cast
      ring
    · rw [Nat.cast_sub (by omega)]
      push_cast
      ring

/-- A number in the interval of a double is less than half a unit above it, or exactly that if the
mantissa is even. -/
theorem Mem.le_above {x : ℚ} (hm : m ≠ 0) (h : (around m q).Mem (q - 2) x) :
    x ≤ (4 * m + 2) * (2 : ℚ) ^ (q - 2) ∧ (m % 2 = 1 → x < (4 * m + 2) * (2 : ℚ) ^ (q - 2)) := by
  obtain ⟨-, -, -, hhigh, hclosed⟩ := around_spec (q := q) hm
  rw [← hhigh]
  refine ⟨h.le_high, fun hodd => (h.inner ?_).2⟩
  rw [← Bool.not_eq_true, hclosed]
  omega

/-- A number in the interval of a double is less than half a unit below it, or exactly that if the
mantissa is even, or less where the doubles below lie twice as close. -/
theorem Mem.below_le {x : ℚ} (hm : m ≠ 0) (h : (around m q).Mem (q - 2) x) :
    (4 * m - 2) * (2 : ℚ) ^ (q - 2) ≤ x ∧ (m % 2 = 1 → (4 * m - 2) * (2 : ℚ) ^ (q - 2) < x) ∧
      (m = 2 ^ 52 → Binary.leastExponent < q → (4 * m - 1) * (2 : ℚ) ^ (q - 2) ≤ x) := by
  obtain ⟨-, -, hlow, -, hclosed⟩ := around_spec (q := q) hm
  have hunit : (0 : ℚ) < (2 : ℚ) ^ (q - 2) := by positivity
  have hends : (4 * m - 2) * (2 : ℚ) ^ (q - 2) ≤ (around m q).low * (2 : ℚ) ^ (q - 2) := by
    refine mul_le_mul_of_nonneg_right ?_ hunit.le
    rw [hlow]
    split <;> linarith
  refine ⟨hends.trans h.low_le, fun hodd => hends.trans_lt (h.inner ?_).1, fun hpower hq => ?_⟩
  · rw [← Bool.not_eq_true, hclosed]
    omega
  · have hle := h.low_le
    rwa [hlow, if_pos ⟨hpower, hq⟩] at hle

end Around

section Disjoint

variable {m m' : Nat} {q q' : Int} {x : ℚ}

/-- Doubles with the same exponent have no numbers in common. -/
theorem not_lt_of_mem (hm : m ≠ 0) (hx : (around m q).Mem (q - 2) x)
    (hx' : (around m' q).Mem (q - 2) x) : ¬m < m' := by
  intro hlt
  obtain ⟨hle, hodd⟩ := hx.le_above hm
  obtain ⟨hle', hodd', -⟩ := hx'.below_le (by omega)
  have hunit : (0 : ℚ) < (2 : ℚ) ^ (q - 2) := by positivity
  have hnext : (m : ℚ) + 1 ≤ m' := by exact_mod_cast hlt
  have hends : (4 * m + 2) * (2 : ℚ) ^ (q - 2) ≤ (4 * m' - 2) * (2 : ℚ) ^ (q - 2) :=
    mul_le_mul_of_nonneg_right (by linarith) hunit.le
  -- Of two mantissas next to each other one is odd, and its ends are left out.
  rcases Nat.mod_two_eq_zero_or_one m with heven | hm₁
  · rcases Nat.mod_two_eq_zero_or_one m' with heven' | hm₁'
    · have hfar : (m : ℚ) + 2 ≤ m' := by
        have hfar' : m + 2 ≤ m' := by omega
        exact_mod_cast hfar'
      have hapart : (4 * m + 2) * (2 : ℚ) ^ (q - 2) < (4 * m' - 2) * (2 : ℚ) ^ (q - 2) :=
        mul_lt_mul_of_pos_right (by linarith) hunit
      linarith
    · linarith [hodd' hm₁']
  · linarith [hodd hm₁]

/-- Doubles with different exponents have no numbers in common. -/
theorem exponent_not_lt_of_mem (h : Binary.Canonical m q) (h' : Binary.Canonical m' q')
    (hm : m ≠ 0) (hx : (around m q).Mem (q - 2) x) (hx' : (around m' q').Mem (q' - 2) x) :
    ¬q < q' := by
  intro hlt
  have hleast : Binary.leastExponent < q' := h.least_le.trans_lt hlt
  have hnormal := h'.normal hleast
  obtain ⟨hle, hodd⟩ := hx.le_above hm
  obtain ⟨hle', -, hpower⟩ := hx'.below_le (by omega)
  have hunit : (0 : ℚ) < (2 : ℚ) ^ (q - 2) := by positivity
  have hunits : 2 * (2 : ℚ) ^ (q - 2) ≤ (2 : ℚ) ^ (q' - 2) := by
    have hstep : 2 * (2 : ℚ) ^ (q - 2) = (2 : ℚ) ^ (q - 2 + 1) := by
      rw [zpow_add_one₀ two_ne_zero, mul_comm]
    rw [hstep]
    exact zpow_le_zpow_right₀ one_le_two (by omega)
  have hend : (2 ^ 54 - 1) * (2 : ℚ) ^ (q' - 2) ≤ x := by
    rcases eq_or_ne m' (2 ^ 52) with heq | hne
    · have hx₁ := hpower heq hleast
      rw [heq] at hx₁
      push_cast at hx₁
      linarith
    · have hbeyond : (2 : ℚ) ^ 52 + 1 ≤ m' := by
        have hbeyond' : 2 ^ 52 + 1 ≤ m' := by omega
        exact_mod_cast hbeyond'
      have hunit' : (0 : ℚ) < (2 : ℚ) ^ (q' - 2) := by positivity
      refine le_trans (mul_le_mul_of_nonneg_right ?_ hunit'.le) hle'
      linarith
  have hend' : (2 ^ 55 - 2) * (2 : ℚ) ^ (q - 2) ≤ x := by linarith
  -- The largest mantissa is odd, so the end that the two would have in common is left out.
  rcases Nat.mod_two_eq_zero_or_one m with heven | hm₁
  · have hsmall : (m : ℚ) + 2 ≤ 2 ^ 53 := by
      have hsmall' : m + 2 ≤ 2 ^ 53 := by
        have hbound := h.mantissa_lt
        omega
      exact_mod_cast hsmall'
    have hapart : (4 * m + 2) * (2 : ℚ) ^ (q - 2) < (2 ^ 55 - 2) * (2 : ℚ) ^ (q - 2) :=
      mul_lt_mul_of_pos_right (by linarith) hunit
    linarith
  · have hsmall : (m : ℚ) + 1 ≤ 2 ^ 53 := by exact_mod_cast h.mantissa_lt
    have hends : (4 * m + 2) * (2 : ℚ) ^ (q - 2) ≤ (2 ^ 55 - 2) * (2 : ℚ) ^ (q - 2) :=
      mul_le_mul_of_nonneg_right (by linarith) hunit.le
    linarith [hodd hm₁]

/-- No number rounds to two doubles. -/
theorem eq_of_mem (h : Binary.Canonical m q) (h' : Binary.Canonical m' q') (hm : m ≠ 0)
    (hm' : m' ≠ 0) (hx : (around m q).Mem (q - 2) x) (hx' : (around m' q').Mem (q' - 2) x) :
    m = m' ∧ q = q' := by
  have hlt := exponent_not_lt_of_mem h h' hm hx hx'
  have hgt := exponent_not_lt_of_mem h' h hm' hx' hx
  obtain rfl : q = q' := by omega
  have hlt' := not_lt_of_mem hm hx hx'
  have hgt' := not_lt_of_mem hm' hx' hx
  exact ⟨by omega, rfl⟩

end Disjoint

end Interval

/-! ## The shortest decimal -/

section Shortest

variable {m : Nat} {q : Int}

/-- No double other than zero is below `10 ^ (-324)`. -/
theorem ten_zpow_le (h : Binary.Canonical m q) (hm : m ≠ 0) :
    (10 : ℚ) ^ (-324 : Int) ≤ m * (2 : ℚ) ^ q := by
  have hone : (1 : ℚ) ≤ m := by exact_mod_cast Nat.one_le_iff_ne_zero.mpr hm
  have hunit : (0 : ℚ) < (2 : ℚ) ^ q := by positivity
  have hpowers : (2 : ℚ) ^ 1074 ≤ 10 ^ 324 := by
    have hroots : ((2 : ℚ) ^ 179) ^ 6 ≤ (10 ^ 54) ^ 6 :=
      pow_le_pow_left₀ (by positivity) (by norm_num) 6
    rwa [← pow_mul, ← pow_mul] at hroots
  calc (10 : ℚ) ^ (-324 : Int) ≤ (2 : ℚ) ^ Binary.leastExponent := by
        unfold Binary.leastExponent
        rw [zpow_neg, zpow_neg, inv_le_inv₀ (by positivity) (by positivity)]
        exact hpowers
    _ ≤ (2 : ℚ) ^ q := zpow_le_zpow_right₀ one_le_two h.least_le
    _ ≤ m * (2 : ℚ) ^ q := le_mul_of_one_le_left hunit.le hone

/-- A number with so many digits is at least the least one with as many. -/
theorem pow_digitCount_le {n : Nat} (hn : n ≠ 0) : 10 ^ (digitCount n - 1) ≤ n := by
  unfold digitCount
  rcases Nat.lt_or_ge 1 (Nat.toDigits 10 n).length with hlong | hshort
  · have hiff := Nat.length_toDigits_le_iff (n := n) (by decide : 1 < 10)
      (by omega : 0 < (Nat.toDigits 10 n).length - 1)
    omega
  · have hzero : (Nat.toDigits 10 n).length - 1 = 0 := by omega
    rw [hzero]
    omega

/-- The leading digit of a double has no more weight than the double. -/
theorem leadingExponent_spec (h : Binary.Canonical m q) (hm : m ≠ 0) :
    (10 : ℚ) ^ leadingExponent m q ≤ m * (2 : ℚ) ^ q := by
  obtain ⟨-, hden, hratio⟩ := unitRatio_spec q (-324)
  have hpoint := Interval.point_le_iff hden hratio m
  unfold leadingExponent
  generalize unitRatio q (-324) = ratio at hden hpoint
  obtain ⟨num, den⟩ := ratio
  simp only at hden hpoint ⊢
  generalize hn : m * num / den = n
  have hone : n ≠ 0 := by
    have hle := hpoint 1
    rw [Nat.cast_one, one_mul, one_mul] at hle
    rw [← hn]
    exact (Nat.div_pos (hle.mp (ten_zpow_le h hm)) hden).ne'
  have hbelow : (n : ℚ) * 10 ^ (-324 : Int) ≤ m * 2 ^ q := by
    rw [hpoint, ← hn]
    exact Nat.div_mul_le_self _ _
  have hlength : 0 < digitCount n := Nat.length_toDigits_pos
  have hexponent : (digitCount n : Int) - 325 = (digitCount n - 1 : ℕ) + -324 := by omega
  calc (10 : ℚ) ^ ((digitCount n : Int) - 325)
      = 10 ^ (digitCount n - 1) * 10 ^ (-324 : Int) := by
        rw [hexponent, zpow_add₀ (by norm_num), zpow_natCast]
    _ ≤ n * 10 ^ (-324 : Int) := by
        refine mul_le_mul_of_nonneg_right ?_ (by positivity)
        exact_mod_cast pow_digitCount_le hone
    _ ≤ m * 2 ^ q := hbelow

/-- With seventeen digits the grid is finer than the interval is wide. -/
theorem seventeen_digits (h : Binary.Canonical m q) (hm : m ≠ 0) :
    (10 : ℚ) ^ (leadingExponent m q - 16) <
      ((Interval.around m q).high - (Interval.around m q).low) * (2 : ℚ) ^ (q - 2) := by
  obtain ⟨-, -, hlow, hhigh, -⟩ := Interval.around_spec (q := q) hm
  have hunit : (0 : ℚ) < (2 : ℚ) ^ (q - 2) := by positivity
  have hfourths : (2 : ℚ) ^ q = 4 * 2 ^ (q - 2) := by
    rw [zpow_sub₀ two_ne_zero]
    ring
  have hbound : (m : ℚ) ≤ 2 ^ 53 := by exact_mod_cast h.mantissa_lt.le
  have hwide : (4 * m : ℚ) <
      10 ^ 16 * ((Interval.around m q).high - (Interval.around m q).low) := by
    rw [hlow, hhigh]
    split
    next hpower =>
      have hm52 : (m : ℚ) = 2 ^ 52 := by exact_mod_cast hpower.1
      rw [hm52]
      norm_num
    · linarith
  calc (10 : ℚ) ^ (leadingExponent m q - 16)
      = 10 ^ leadingExponent m q / 10 ^ 16 := by
        rw [zpow_sub₀ (by norm_num)]
        norm_cast
    _ ≤ 4 * m / 10 ^ 16 * 2 ^ (q - 2) := by
        rw [div_mul_eq_mul_div]
        refine div_le_div_of_nonneg_right ?_ (by positivity)
        have hlead := leadingExponent_spec h hm
        rw [hfourths] at hlead
        linarith
    _ < ((Interval.around m q).high - (Interval.around m q).low) * 2 ^ (q - 2) := by
        refine mul_lt_mul_of_pos_right ?_ hunit
        rw [div_lt_iff₀ (by positivity)]
        linarith

/-- The shortest decimal of a double rounds to it. -/
theorem shortest_mem (h : Binary.Canonical m q) (hm : m ≠ 0) :
    (Interval.around m q).Mem (q - 2) (shortest m q).value := by
  obtain ⟨hlow, hhigh, -⟩ := Interval.around_spec (q := q) hm
  have hlast : (Interval.around m q).onGrid? (q - 2) (leadingExponent m q + 1 - 17) ≠ none := by
    have hgrid : leadingExponent m q + 1 - 17 = leadingExponent m q - 16 := by ring
    rw [hgrid]
    exact Interval.onGrid?_ne_none hlow hhigh (seventeen_digits h hm)
  unfold shortest
  simp only
  generalize hfound : (List.range 18).findSome? _ = found
  cases found with
  | none =>
    rw [List.findSome?_eq_none_iff] at hfound
    exact absurd (hfound 17 (by decide)) hlast
  | some d =>
    obtain ⟨n, -, hd⟩ := List.exists_of_findSome?_eq_some hfound
    exact Interval.mem_of_onGrid? hd

/-- Different doubles have different shortest decimals. -/
theorem eq_of_shortest_value {m' : Nat} {q' : Int} (h : Binary.Canonical m q)
    (h' : Binary.Canonical m' q') (hm : m ≠ 0) (hm' : m' ≠ 0)
    (hvalue : (shortest m q).value = (shortest m' q').value) : m = m' ∧ q = q' :=
  Interval.eq_of_mem h h' hm hm' (shortest_mem h hm) (hvalue ▸ shortest_mem h' hm')

/-- The shortest decimal of a double other than zero is not zero. -/
theorem shortest_value_pos (h : Binary.Canonical m q) (hm : m ≠ 0) : 0 < (shortest m q).value := by
  have hmem := (shortest_mem h hm).below_le hm
  have hone : (1 : ℚ) ≤ m := by exact_mod_cast Nat.one_le_iff_ne_zero.mpr hm
  have hunit : (0 : ℚ) < (2 : ℚ) ^ (q - 2) := by positivity
  have hpos : (0 : ℚ) < (4 * m - 2) * 2 ^ (q - 2) := mul_pos (by linarith) hunit
  exact hpos.trans_le hmem.1

end Shortest

end Decimal

end Brisk
