import Brisk.Number.Decimal
import Mathlib.Data.List.TakeDrop

/-!
# Reading digits

What the readers of decimal text make of digits: an integer that fits has the value that was
checked, and digits with a point behind or among them are read as the double that they stand for,
since they are neither a sign nor the name of a value.
-/

namespace Brisk

/-- The value of a 32-bit integer that has been checked to fit. -/
theorem Integer.toInt_of_ofInt? {n : Int} {i : Int32} (h : ofInt? n = some i) : i.toInt = n := by
  unfold ofInt? at h
  split at h
  next hrange =>
    obtain rfl := Option.some.inj h
    exact Int32.toInt_ofInt_of_le (by omega) (by omega)
  · exact absurd h (by simp)

namespace Decimal

variable {ds fs : List Char}

/-- The names of values that have no digits do not start with one. -/
theorem named?_of_isDigit {negative : Bool} {d : Char} {cs : List Char} (hd : d.isDigit = true) :
    named? negative (d :: cs) = none := by
  have hlower : d.toLower = d := by
    unfold Char.toLower
    rw [dif_neg]
    intro hupper
    have hrange : 48 ≤ d.val.toNat ∧ d.val.toNat ≤ 57 := by
      simpa [Char.isDigit, UInt32.le_iff_toNat_le] using hd
    have hrange' : 65 ≤ d.val.toNat ∧ d.val.toNat ≤ 90 := by
      simpa [UInt32.le_iff_toNat_le] using hupper
    omega
  have hne : ∀ name : String, (∀ e es, name.toList = e :: es → e.isDigit = false) →
      String.ofList ((d :: cs).map Char.toLower) ≠ name := by
    intro name hname heq
    have hlist : name.toList = d :: cs.map Char.toLower := by
      rw [← heq, String.toList_ofList, List.map_cons, hlower]
    rw [hname d _ hlist] at hd
    exact absurd hd (by decide)
  have hinf := hne "inf" (by intro e es h; obtain rfl := (List.cons.inj h).1; decide)
  have hinfinity := hne "infinity" (by intro e es h; obtain rfl := (List.cons.inj h).1; decide)
  have hnan := hne "nan" (by intro e es h; obtain rfl := (List.cons.inj h).1; decide)
  unfold named?
  simp only
  rw [if_neg (not_or.mpr ⟨hinf, hinfinity⟩), if_neg hnan]

/-- Digits with a point behind or among them are read as the number that they stand for. -/
theorem read?_of_digits (hne : ds ≠ []) (hds : ∀ d ∈ ds, d.isDigit = true)
    (hfs : ∀ d ∈ fs, d.isDigit = true) :
    read? (String.ofList (ds ++ '.' :: fs)) = some (ofDigits false ds fs 0) := by
  obtain ⟨d, ds, rfl⟩ := List.exists_cons_of_ne_nil hne
  have hd : d.isDigit = true := hds d List.mem_cons_self
  -- The digits end at the point, and the fraction with the text.
  have hwhole : (d :: ds ++ '.' :: fs).span Char.isDigit = (d :: ds, '.' :: fs) := by
    rw [List.span_eq_takeWhile_dropWhile, List.takeWhile_append_of_pos hds,
      List.dropWhile_append_of_pos hds, List.takeWhile_cons_of_neg (by decide),
      List.dropWhile_cons_of_neg (by decide), List.append_nil]
  have hfraction : fs.span Char.isDigit = (fs, []) := by
    have htake : (fs ++ []).takeWhile Char.isDigit = fs := by
      rw [List.takeWhile_append_of_pos hfs, List.takeWhile_nil, List.append_nil]
    have hdrop : (fs ++ []).dropWhile Char.isDigit = [] := List.dropWhile_append_of_pos hfs
    rw [List.append_nil] at htake hdrop
    rw [List.span_eq_takeWhile_dropWhile, htake, hdrop]
  -- There is no exponent behind the fraction.
  have hunsigned :
      unsigned? false (d :: ds ++ '.' :: fs) = some (ofDigits false (d :: ds) fs 0) := by
    unfold unsigned?
    simp only [hwhole, splitFraction, hfraction]
    rfl
  have hmagnitude : magnitude? false (d :: ds ++ '.' :: fs) =
      some (ofDigits false (d :: ds) fs 0) := by
    unfold magnitude?
    rw [List.cons_append, named?_of_isDigit hd, Option.none_or]
    exact hunsigned
  unfold read?
  rw [String.toList_ofList]
  -- A digit is no sign.
  split
  next cs heq =>
    rw [(List.cons.inj heq).1] at hd
    exact absurd hd (by decide)
  next cs heq =>
    rw [(List.cons.inj heq).1] at hd
    exact absurd hd (by decide)
  · exact hmagnitude

end Decimal

end Brisk
