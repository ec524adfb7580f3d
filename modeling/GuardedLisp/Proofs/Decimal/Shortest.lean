import GuardedLisp.Proofs.Double.Exactness

/-!
# The shortest decimal reads back

A numeral stands for the rational number `coefficient · 10 ^ exponent`, its size.
Neither writing it out nor trimming it changes the size, and all digits of a
double have the size of that double. So whichever numeral the search for the
shortest one ends with, written out it has the double as its value
(`magnitude_shortest`): a candidate is only taken when it does, and all digits
are taken when no candidate is.
-/

namespace GuardedLisp.Decimal

open Double
open Float.Model.UnpackedFloat (Sign)

theorem powerOfTen_eq (k : Nat) : powerOfTen k = 10 ^ k := rfl

namespace Numeral

/-- The number that a numeral stands for, without its sign. -/
def size (n : Numeral) : ℚ := n.coefficient * 10 ^ n.exponent

theorem size_writtenOut (n : Numeral) : n.writtenOut.size = n.size := by
  unfold writtenOut
  split
  · next hpos =>
    obtain ⟨k, hk⟩ := Int.eq_ofNat_of_zero_le (Int.le_of_lt hpos)
    simp [size, powerOfTen_eq, hk]
  · rfl

theorem exponent_writtenOut_le (n : Numeral) : n.writtenOut.exponent ≤ 0 := by
  unfold writtenOut
  split
  · exact le_rfl
  · omega

theorem exponent_writtenOut_ge {n : Numeral} (h : -1074 ≤ n.exponent) :
    -1074 ≤ n.writtenOut.exponent := by
  unfold writtenOut
  split
  · exact (by decide : (-1074 : Int) ≤ 0)
  · exact h

theorem size_trimmed (n : Numeral) : n.trimmed.size = n.size := by
  fun_induction trimmed n with
  | case1 n h ih =>
    have hcoefficient : n.coefficient = n.coefficient / 10 * 10 := by omega
    have hrat : (n.coefficient : ℚ) = (n.coefficient / 10 : Nat) * 10 := by
      exact_mod_cast hcoefficient
    rw [ih, size, size, zpow_add_one₀ (by norm_num), hrat]
    ring
  | case2 n h => rfl

theorem exponent_le_trimmed (n : Numeral) : n.exponent ≤ n.trimmed.exponent := by
  fun_induction trimmed n with
  | case1 n h ih => exact le_trans (by simp) ih
  | case2 n h => exact le_rfl

/-- A numeral of the size of a double, with no power of ten to multiply by, has that double as
its value. -/
theorem magnitude_eq {n : Numeral} {m : Nat} {e : Int} (h : Canonical m e)
    (hle : n.exponent ≤ 0) (hge : -1074 ≤ n.exponent) (hsize : n.size = m * 2 ^ e) :
    parts n.magnitude = .finite .positive m e h.pos := by
  unfold magnitude
  split
  · next hneg =>
    obtain ⟨k, hk⟩ := Int.eq_ofNat_of_zero_le (show 0 ≤ -n.exponent by omega)
    have hexponent : n.exponent = -k := by omega
    have habs : n.exponent.natAbs = k := by omega
    rw [habs]
    refine ofScientific_true_eq h (by omega) (by omega) ?_
    rw [← hsize, size, hexponent, zpow_neg, zpow_natCast, div_eq_mul_inv]
  · have hzero : n.exponent = 0 := by omega
    simp only [hzero, Int.natAbs_zero]
    refine ofScientific_false_eq h ?_
    rw [← hsize, size, hzero, zpow_zero, mul_one]

end Numeral

/-! ## All digits of a double -/

theorem size_exact_of_fraction (m k : Nat) : (Ratio.exact ⟨m, 2 ^ k⟩).size = m / 2 ^ k := by
  have hlog : (2 ^ k).log2 = k := Nat.log2_two_pow
  have hsplit : m * 10 ^ k / 2 ^ k = m * 5 ^ k := by
    have hten : 10 ^ k = 5 ^ k * 2 ^ k := by rw [← Nat.mul_pow]
    rw [hten, ← Nat.mul_assoc, Nat.mul_div_cancel _ (Nat.two_pow_pos k)]
  have hten : (10 : ℚ) ^ k = 5 ^ k * 2 ^ k := by rw [← mul_pow]; norm_num
  simp only [Ratio.exact, Numeral.size, hlog, powerOfTen_eq, hsplit, zpow_neg, zpow_natCast, hten]
  push_cast
  field_simp

theorem size_exact {x : Float} {s : Sign} {m : Nat} {e : Int} {hpos : 0 < m}
    (hx : parts x = .finite s m e hpos) : (magnitudeOf x).exact.size = m * 2 ^ e := by
  rw [magnitudeOf_eq hx, Nat.one_shiftLeft, Nat.shiftLeft_eq]
  split
  · next hneg =>
    obtain ⟨k, hk⟩ := Int.eq_ofNat_of_zero_le (show 0 ≤ -e by omega)
    have hexponent : e = -k := by omega
    have habs : e.natAbs = k := by omega
    rw [habs, size_exact_of_fraction, hexponent, zpow_neg, zpow_natCast, div_eq_mul_inv]
  · obtain ⟨k, hk⟩ := Int.eq_ofNat_of_zero_le (show 0 ≤ e by omega)
    have habs : e.natAbs = k := by omega
    have hfraction := size_exact_of_fraction (m * 2 ^ k) 0
    rw [habs, hk]
    simpa using hfraction

theorem exponent_exact_ge {x : Float} {s : Sign} {m : Nat} {e : Int} {hpos : 0 < m}
    (hx : parts x = .finite s m e hpos) : -1074 ≤ (magnitudeOf x).exact.exponent := by
  have hge := (canonical_of_parts hx).ge
  rw [magnitudeOf_eq hx, Nat.one_shiftLeft, Nat.shiftLeft_eq]
  split
  · simp only [Ratio.exact, Nat.log2_two_pow]
    omega
  · exact (by decide : (-1074 : Int) ≤ 0)

/-- The digits of the shortest numeral, written out in full, are read as the double that they were
found for. -/
theorem magnitude_shortest {x : Float} {m : Nat} {e : Int} {hpos : 0 < m}
    (hx : parts x = .finite .positive m e hpos) : (shortest x).writtenOut.magnitude = x := by
  unfold shortest
  dsimp only
  cases hfound : (List.range 17).findSome? fun n => (((magnitudeOf x).neighbours
      ((magnitudeOf x).pointPlace - (n + 1 : Nat))).map Numeral.trimmed).find?
        (Numeral.readsBack x) with
  | some n =>
    obtain ⟨count, -, hfind⟩ := List.exists_of_findSome?_eq_some hfound
    have hreads : (Numeral.readsBack x n) = true := List.find?_some hfind
    exact eq_of_beq_finite hreads hx
  | none =>
    have hsize : (magnitudeOf x).exact.trimmed.writtenOut.size = m * 2 ^ e := by
      rw [Numeral.size_writtenOut, Numeral.size_trimmed, size_exact hx]
    have hge : -1074 ≤ (magnitudeOf x).exact.trimmed.exponent :=
      (exponent_exact_ge hx).trans (Numeral.exponent_le_trimmed _)
    refine parts_injective ?_
    rw [hx]
    exact Numeral.magnitude_eq (canonical_of_parts hx) (Numeral.exponent_writtenOut_le _)
      (Numeral.exponent_writtenOut_ge hge) hsize

end GuardedLisp.Decimal
