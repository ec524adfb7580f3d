import GuardedLisp.Proofs.Double.Encoding

/-!
# What a double can hold is not rounded

A product, a quotient, or a decimal numeral whose exact value is `m · 2 ^ e`, with
a mantissa and an exponent that some double has, is that double
(`mul_eq_of_canonical`, `div_eq_of_canonical`, `ofScientific_true_eq`,
`ofScientific_false_eq`).
-/

namespace GuardedLisp.Double

open Float.Model UnpackedFloat

/-! ## Shifting -/

theorem log2_mul_two_pow {m : Nat} (hm : 0 < m) (k : Nat) : (m * 2 ^ k).log2 = m.log2 + k := by
  induction k with
  | zero => simp
  | succ k ih =>
    have hne : m * 2 ^ k ≠ 0 := Nat.ne_of_gt (Nat.mul_pos hm (Nat.two_pow_pos k))
    rw [Nat.pow_succ, ← Nat.mul_assoc, Nat.mul_comm _ 2, Nat.log2_two_mul hne, ih, Nat.add_assoc]

theorem log2_mul_le {m n : Nat} (hm : 0 < m) (hn : 0 < n) :
    (m * n).log2 ≤ m.log2 + n.log2 + 1 := by
  have hlt : m * n < 2 ^ (m.log2 + n.log2 + 2) := by
    calc
      m * n < 2 ^ (m.log2 + 1) * 2 ^ (n.log2 + 1) :=
        Nat.mul_lt_mul'' Nat.lt_log2_self Nat.lt_log2_self
      _ = 2 ^ (m.log2 + n.log2 + 2) := by rw [← Nat.pow_add]; congr 1; omega
  have hlog := (Nat.log2_lt (Nat.ne_of_gt (Nat.mul_pos hm hn))).2 hlt
  omega

/-- Bits that are all zero are dropped without a trace. -/
theorem shiftRight_exact (m k : Nat) :
    (⟨m * 2 ^ k, false, false⟩ : ExtendedMantissa) >>> k = ⟨m, false, false⟩ := by
  induction k generalizing m with
  | zero => simp [HShiftRight.hShiftRight, Nat.repeat]
  | succ k ih =>
    have hsplit : m * 2 ^ (k + 1) = m * 2 * 2 ^ k := by rw [Nat.pow_succ']; ring
    change ((⟨m * 2 ^ (k + 1), false, false⟩ : ExtendedMantissa) >>> k).shiftRightOne = _
    rw [hsplit, ih]
    simp [ExtendedMantissa.shiftRightOne]

theorem targetExponent_eq (t : Int) : Format.binary64.targetExponent t = max (t - 53) (-1074) := rfl

theorem Canonical.targetExponent_eq {m : Nat} {e : Int} (h : Canonical m e) :
    Format.binary64.targetExponent (totalExponent m e) = e := by
  have hlt : m.log2 < 53 := (Nat.log2_lt (Nat.ne_of_gt h.pos)).2 h.lt
  have hfull : 52 ≤ m.log2 ∨ e = -1074 := h.full.imp_left (Nat.le_log2 (Nat.ne_of_gt h.pos)).2
  have hge := h.ge
  rw [Double.targetExponent_eq, totalExponent]
  omega

theorem Canonical.shiftToTargetExponent_eq {m : Nat} {e : Int} (h : Canonical m e) (k : Nat) :
    shiftToTargetExponent Format.binary64 (m * 2 ^ k) (e - k) .exact = (⟨m, false, false⟩, e) := by
  have htotal : totalExponent (m * 2 ^ k) (e - k) = totalExponent m e := by
    rw [totalExponent, log2_mul_two_pow h.pos, totalExponent]
    omega
  have hshift : (e - (e - k)).toNat = k := by omega
  rw [shiftToTargetExponent, htotal, h.targetExponent_eq, shiftToExponent, hshift]
  simp only [ExtendedMantissa.ofMantissaAndAccuracy, shiftRight_exact]
  congr 1
  omega

theorem Canonical.roundWithAccuracy_eq {m : Nat} {e : Int} (h : Canonical m e) (s : Sign)
    (k : Nat) :
    roundWithAccuracy Format.binary64 s (m * 2 ^ k) (e - k) .exact = .finite s m e h.pos := by
  have hfirst := h.shiftToTargetExponent_eq k
  have hsecond := h.shiftToTargetExponent_eq 0
  simp only [Nat.pow_zero, Nat.mul_one, Nat.cast_zero, Int.sub_zero] at hsecond
  simp only [roundWithAccuracy, hfirst, ExtendedMantissa.roundedMantissa,
    ExtendedMantissa.accuracy, Accuracy.roundToNearestEven, hsecond, dif_neg (Nat.ne_of_gt h.pos)]

/-! ## Exact results -/

/-- Equal numbers `x · 2 ^ i` and `y · 2 ^ j` stay equal when the powers are changed alike. -/
theorem mul_two_pow_eq {x y : Nat} {i j : Int} (h : (x : ℚ) * 2 ^ i = y * 2 ^ j) {a b : Nat}
    (hab : i - j = a - b) : x * 2 ^ a = y * 2 ^ b := by
  have htwo : (2 : ℚ) ≠ 0 := two_ne_zero
  have hrat : (x : ℚ) * 2 ^ (a : Int) = y * 2 ^ (b : Int) := by
    have ha : (a : Int) = i + (b - j) := by omega
    rw [ha, zpow_add₀ htwo, ← mul_assoc, h, mul_assoc, ← zpow_add₀ htwo, add_sub_cancel]
  simp only [zpow_natCast] at hrat
  exact_mod_cast hrat

theorem mul_eq_of_canonical {m : Nat} {e : Int} (h : Canonical m e) (s₁ s₂ : Sign) {m₁ m₂ : Nat}
    {e₁ e₂ : Int} (hpos₁ : 0 < m₁) (hpos₂ : 0 < m₂) (hle : e₁ + e₂ ≤ e)
    (hvalue : (m₁ * 2 ^ e₁ * (m₂ * 2 ^ e₂) : ℚ) = m * 2 ^ e) :
    UnpackedFloat.mul Format.binary64 (.finite s₁ m₁ e₁ hpos₁) (.finite s₂ m₂ e₂ hpos₂) =
      .finite (s₁ * s₂) m e h.pos := by
  obtain ⟨k, hk⟩ := Int.eq_ofNat_of_zero_le (show 0 ≤ e - (e₁ + e₂) by omega)
  have hmantissa : m₁ * m₂ * 2 ^ 0 = m * 2 ^ k := by
    refine mul_two_pow_eq (i := e₁ + e₂) (j := e) ?_ (by omega)
    rw [zpow_add₀ two_ne_zero, ← hvalue]
    push_cast
    ring
  have hexponent : e₁ + e₂ = e - k := by omega
  rw [UnpackedFloat.mul, hexponent, ← h.roundWithAccuracy_eq (s₁ * s₂) k, ← hmantissa]
  simp

/-- The quotient is cut off where the mantissa of the exact quotient ends, or behind it. -/
theorem quotientExponent_le {m : Nat} {e : Int} (h : Canonical m e) {m₁ m₂ : Nat} {e₁ e₂ : Int}
    (hpos₁ : 0 < m₁) (hpos₂ : 0 < m₂)
    (hvalue : (m₁ : ℚ) * 2 ^ e₁ = (m * m₂ : Nat) * 2 ^ (e + e₂)) :
    Format.binary64.targetExponent (totalExponent m₁ e₁ - totalExponent m₂ e₂) ≤ e := by
  have hmantissa : m₁ * 2 ^ (e₁ - (e + e₂)).toNat = m * m₂ * 2 ^ (e + e₂ - e₁).toNat :=
    mul_two_pow_eq hvalue (by omega)
  have hlog := congrArg Nat.log2 hmantissa
  rw [log2_mul_two_pow hpos₁, log2_mul_two_pow (Nat.mul_pos h.pos hpos₂)] at hlog
  have hle := log2_mul_le h.pos hpos₂
  calc
    Format.binary64.targetExponent (totalExponent m₁ e₁ - totalExponent m₂ e₂)
      ≤ Format.binary64.targetExponent (totalExponent m e) := by
        simp only [targetExponent_eq, totalExponent]
        omega
    _ = e := h.targetExponent_eq

theorem div_eq_of_canonical {m : Nat} {e : Int} (h : Canonical m e) (s₁ s₂ : Sign) {m₁ m₂ : Nat}
    {e₁ e₂ : Int} (hpos₁ : 0 < m₁) (hpos₂ : 0 < m₂)
    (hvalue : (m₁ * 2 ^ e₁ / (m₂ * 2 ^ e₂) : ℚ) = m * 2 ^ e) :
    UnpackedFloat.div Format.binary64 (.finite s₁ m₁ e₁ hpos₁) (.finite s₂ m₂ e₂ hpos₂) =
      .finite (s₁ / s₂) m e h.pos := by
  have htwo : (2 : ℚ) ≠ 0 := two_ne_zero
  have hm₂ : (m₂ : ℚ) ≠ 0 := by exact_mod_cast Nat.ne_of_gt hpos₂
  have hproduct : (m₁ : ℚ) * 2 ^ e₁ = (m * m₂ : Nat) * 2 ^ (e + e₂) := by
    rw [div_eq_iff (mul_ne_zero hm₂ (zpow_ne_zero _ htwo))] at hvalue
    rw [hvalue, zpow_add₀ htwo]
    push_cast
    ring
  obtain ⟨t, ht⟩ : ∃ t, t = min (e₁ - e₂)
      (Format.binary64.targetExponent (totalExponent m₁ e₁ - totalExponent m₂ e₂)) := ⟨_, rfl⟩
  have hle := quotientExponent_le h hpos₁ hpos₂ hproduct
  obtain ⟨k, hk⟩ := Int.eq_ofNat_of_zero_le (show 0 ≤ e - t by omega)
  have hdividend : m₁ <<< (e₁ - e₂ - t).toNat = m * 2 ^ k * m₂ := by
    rw [Nat.shiftLeft_eq, Nat.mul_right_comm]
    exact mul_two_pow_eq hproduct (by omega)
  have hcore : divCore Format.binary64 m₁ e₁ m₂ e₂ = (m * 2 ^ k, e - k, .exact) := by
    simp only [divCore, ← ht, hdividend, Nat.mul_div_cancel _ hpos₂, Nat.mul_mod_left,
      accuracyOfFraction, if_true, Prod.mk.injEq, true_and, and_true]
    omega
  rw [UnpackedFloat.div, hcore]
  exact h.roundWithAccuracy_eq (s₁ / s₂) k

/-! ## Decimal numerals -/

section WholeNumbers

variable {c j : Nat} (hpos : 0 < c) (hj : c.log2 + j = 52)

include hpos hj

/-- A whole number is moved to the left until its mantissa is full. -/
theorem canonical_of_log2 : Canonical (c * 2 ^ j) (-j) := by
  have hmantissa := log2_mul_two_pow hpos j
  rw [hj, Nat.log2_eq_iff (Nat.ne_of_gt (Nat.mul_pos hpos (Nat.two_pow_pos j)))] at hmantissa
  exact ⟨by omega, hmantissa.2, by omega, by omega, .inl hmantissa.1⟩

theorem ofUInt64_eq : UnpackedFloat.ofUInt64 Format.binary64 c.toUInt64 =
    .finite .positive (c * 2 ^ j) (-j) (canonical_of_log2 hpos hj).pos := by
  have hc : c.toUInt64.toNat = c := by
    have hlt : c < 2 ^ 53 := (Nat.log2_lt (Nat.ne_of_gt hpos)).1 (by omega)
    exact Nat.mod_eq_of_lt (by omega)
  have hgt : compare (c : Int) 0 = .gt := Int.compare_eq_gt.2 (by omega)
  have htarget : Format.binary64.targetExponent (totalExponent c 0) = -j := by
    rw [targetExponent_eq, totalExponent]
    omega
  have hshift : (0 - (-j : Int)).toNat = j := by omega
  have hexact := (canonical_of_log2 hpos hj).roundWithAccuracy_eq .positive 0
  simp only [UnpackedFloat.ofUInt64, UnpackedFloat.ofNat, UnpackedFloat.ofInt,
    UnpackedFloat.normalize, hc, hgt, UnpackedFloat.round, Int.toNat_natCast, htarget,
    decreaseExponent, hshift, Nat.shiftLeft_eq]
  simpa using hexact

end WholeNumbers

/-- A whole number below `2 ^ 53` is held as it is. -/
theorem parts_toFloat {c : Nat} (hpos : 0 < c) (hlt : c < 2 ^ 53) :
    ∃ (m : Nat) (e : Int) (h : Canonical m e),
      parts c.toUInt64.toFloat = .finite .positive m e h.pos ∧ e ≤ 0 ∧ (m * 2 ^ e : ℚ) = c := by
  have hlog : c.log2 < 53 := (Nat.log2_lt (Nat.ne_of_gt hpos)).2 hlt
  obtain ⟨j, hj⟩ : ∃ j : Nat, c.log2 + j = 52 := ⟨52 - c.log2, by omega⟩
  have hcanonical := canonical_of_log2 hpos hj
  refine ⟨c * 2 ^ j, -j, hcanonical, ?_, by omega, ?_⟩
  · have hparts := parts_ofParts (u := .finite .positive _ _ hcanonical.pos) hcanonical
    rw [← ofUInt64_eq hpos hj] at hparts ⊢
    exact hparts
  · push_cast
    rw [mul_assoc, ← zpow_natCast, ← zpow_add₀ two_ne_zero]
    simp

def isPowerOfTen (k : Nat) : UnpackedFloat → Bool
  | .finite .positive m e _ => -52 ≤ e && m * 2 ^ (e + 52).toNat == 10 ^ k * 2 ^ 52
  | _ => false

theorem isPowerOfTen_table : ∀ k : Fin 23,
    isPowerOfTen k (parts Float.exactlyRepresentablePowersOfTen[k]) = true := by
  decide +kernel

theorem exists_of_isPowerOfTen {k : Nat} {u : UnpackedFloat} (h : isPowerOfTen k u = true) :
    ∃ (m : Nat) (e : Int) (hpos : 0 < m), u = .finite .positive m e hpos ∧
      (m * 2 ^ e : ℚ) = 10 ^ k := by
  unfold isPowerOfTen at h
  split at h
  · next m e hpos =>
    simp only [Bool.and_eq_true, decide_eq_true_eq, beq_iff_eq] at h
    refine ⟨m, e, hpos, rfl, ?_⟩
    have hrat : (m : ℚ) * 2 ^ (e + 52) = 10 ^ k * 2 ^ (52 : Int) := by
      have hexponent : e + 52 = (e + 52).toNat := by omega
      rw [hexponent]
      exact_mod_cast h.2
    rw [zpow_add₀ two_ne_zero, ← mul_assoc] at hrat
    exact mul_right_cancel₀ (zpow_ne_zero _ two_ne_zero) hrat
  · cases h

theorem parts_div {x y : Float} {u : UnpackedFloat}
    (h : UnpackedFloat.div Format.binary64 (parts x) (parts y) = u) (hu : IsPacked u) :
    parts (x / y) = u := by
  rw [← h] at hu ⊢
  exact parts_ofParts hu

theorem parts_mul {x y : Float} {u : UnpackedFloat}
    (h : UnpackedFloat.mul Format.binary64 (parts x) (parts y) = u) (hu : IsPacked u) :
    parts (x * y) = u := by
  rw [← h] at hu ⊢
  exact parts_ofParts hu

theorem Canonical.value_pos {m : Nat} {e : Int} (h : Canonical m e) : (0 : ℚ) < m * 2 ^ e :=
  mul_pos (by exact_mod_cast h.pos) (zpow_pos two_pos e)

theorem ofScientific_neg {c k : Nat} (hc : 0 < c) (hpos : 0 < k) (hk : k ≤ 2048) :
    UnpackedFloat.ofScientific Format.binary64 c (-k) =
      UnpackedFloat.div Format.binary64 (.finite .positive c 0 hc)
        (.finite .positive (10 ^ k) 0 (Nat.pow_pos (by decide))) := by
  have hlimit : (2 : Int) ^ Format.binary64.exponentBits = 2048 := rfl
  have habs : (-(-k : Int)).toNat = k := by omega
  rw [UnpackedFloat.ofScientific, dif_neg (Nat.ne_of_gt hc), hlimit, if_neg (by omega),
    if_neg (by omega), if_neg (by omega)]
  simp only [habs]

theorem ofScientific_zero {c : Nat} (hc : 0 < c) :
    UnpackedFloat.ofScientific Format.binary64 c 0 =
      UnpackedFloat.mul Format.binary64
        (.finite .positive (c * 2 ^ 53) (-53) (Nat.mul_pos hc (Nat.two_pow_pos 53)))
        (.finite .positive 1 0 Nat.one_pos) := by
  have hlimit : (2 : Int) ^ Format.binary64.exponentBits = 2048 := rfl
  rw [UnpackedFloat.ofScientific, dif_neg (Nat.ne_of_gt hc), hlimit, if_neg (by omega),
    if_neg (by omega), if_pos le_rfl]
  simp only [Nat.shiftLeft_eq]
  rfl

theorem ofScientific_true_eq {m : Nat} {e : Int} (h : Canonical m e) {c k : Nat}
    (hpos : 0 < k) (hk : k ≤ 1074) (hvalue : (c / 10 ^ k : ℚ) = m * 2 ^ e) :
    parts (Float.ofScientific c true k) = .finite .positive m e h.pos := by
  have hc : 0 < c := by
    have hquotient := h.value_pos
    rw [← hvalue, div_pos_iff_of_pos_right (by positivity)] at hquotient
    exact_mod_cast hquotient
  unfold Float.ofScientific
  split
  · next hsmall =>
    obtain ⟨m₁, e₁, h₁, hparts₁, -, hvalue₁⟩ := parts_toFloat hc hsmall.1
    obtain ⟨m₂, e₂, hpos₂, hparts₂, hvalue₂⟩ :=
      exists_of_isPowerOfTen (isPowerOfTen_table ⟨k, Nat.lt_succ_of_le hsmall.2⟩)
    have hdiv := div_eq_of_canonical h .positive .positive h₁.pos hpos₂
      (by rw [hvalue₁, hvalue₂]; exact hvalue)
    rw [← hparts₁, ← hparts₂] at hdiv
    exact parts_div hdiv h
  · have hslow : UnpackedFloat.ofScientific Format.binary64 c (-k) =
        .finite .positive m e h.pos := by
      rw [ofScientific_neg hc hpos (by omega)]
      exact div_eq_of_canonical h .positive .positive hc _ (by rw [← hvalue]; simp)
    show parts (ofParts (UnpackedFloat.ofScientific Format.binary64 c (Int.negOfNat k))) = _
    rw [Int.negOfNat_eq, Int.ofNat_eq_natCast, hslow]
    exact parts_ofParts h

theorem Canonical.pos_of_value {m : Nat} {e : Int} (h : Canonical m e) {c : Nat}
    (hvalue : (c : ℚ) = m * 2 ^ e) : 0 < c := by
  have hpos := h.value_pos
  rw [← hvalue] at hpos
  exact_mod_cast hpos

/-- A whole number that a double can hold has no digits far below its last one. -/
theorem Canonical.exponent_ge {m : Nat} {e : Int} (h : Canonical m e) {c : Nat}
    (hvalue : (c : ℚ) = m * 2 ^ e) : -52 ≤ e := by
  by_contra hlt
  obtain ⟨k, hk⟩ := Int.eq_ofNat_of_zero_le (show 0 ≤ -53 - e by omega)
  have hmantissa : c * 2 ^ (53 + k) = m * 2 ^ 0 :=
    mul_two_pow_eq (i := 0) (j := e) (by rw [← hvalue]; simp) (by omega)
  have hc : 0 < c := h.pos_of_value hvalue
  have hle : 2 ^ 53 ≤ c * 2 ^ (53 + k) :=
    calc
      2 ^ 53 ≤ 2 ^ (53 + k) := Nat.pow_le_pow_right (by decide) (by omega)
      _ ≤ c * 2 ^ (53 + k) := Nat.le_mul_of_pos_left _ hc
  have hm := h.lt
  omega

theorem ofScientific_false_eq {m : Nat} {e : Int} (h : Canonical m e) {c : Nat}
    (hvalue : (c : ℚ) = m * 2 ^ e) :
    parts (Float.ofScientific c false 0) = .finite .positive m e h.pos := by
  have hc : 0 < c := h.pos_of_value hvalue
  have hge := h.exponent_ge hvalue
  unfold Float.ofScientific
  split
  · next hsmall =>
    obtain ⟨m₁, e₁, h₁, hparts₁, hle₁, hvalue₁⟩ := parts_toFloat hc hsmall.1
    have hone : parts Float.exactlyRepresentablePowersOfTen[0] =
        .finite .positive (2 ^ 52) (-52) (Nat.two_pow_pos 52) := rfl
    have hmul := mul_eq_of_canonical h .positive .positive h₁.pos (Nat.two_pow_pos 52)
      (show e₁ + -52 ≤ e by omega) (by rw [hvalue₁, hvalue]; norm_num)
    rw [← hparts₁, ← hone] at hmul
    exact parts_mul hmul h
  · have hslow : UnpackedFloat.ofScientific Format.binary64 c 0 =
        .finite .positive m e h.pos := by
      rw [ofScientific_zero hc]
      exact mul_eq_of_canonical h .positive .positive _ _ (by omega)
        (by rw [← hvalue]; norm_num; ring)
    show parts (ofParts (UnpackedFloat.ofScientific Format.binary64 c 0)) = _
    rw [hslow]
    exact parts_ofParts h

/-! ## Numerals are numbers -/

theorem roundWithAccuracy_ne (s : Sign) (m : Nat) (e : Int) (accuracy : Accuracy) :
    roundWithAccuracy Format.binary64 s m e accuracy ≠ .notANumber := by
  unfold roundWithAccuracy
  dsimp only
  split <;> exact UnpackedFloat.noConfusion

theorem mul_finite_ne {u : UnpackedFloat} (hu : u.isFinite = true) (s : Sign) {m : Nat} (e : Int)
    (hpos : 0 < m) : UnpackedFloat.mul Format.binary64 u (.finite s m e hpos) ≠ .notANumber := by
  cases u with
  | finite => exact roundWithAccuracy_ne _ _ _ _
  | zero => exact UnpackedFloat.noConfusion
  | _ => cases hu

theorem div_finite_ne {u : UnpackedFloat} (hu : u.isFinite = true) (s : Sign) {m : Nat} (e : Int)
    (hpos : 0 < m) : UnpackedFloat.div Format.binary64 u (.finite s m e hpos) ≠ .notANumber := by
  cases u with
  | finite => exact roundWithAccuracy_ne _ _ _ _
  | zero => exact UnpackedFloat.noConfusion
  | _ => cases hu

theorem isFinite_toFloat {c : Nat} (hlt : c < 2 ^ 53) :
    (parts c.toUInt64.toFloat).isFinite = true := by
  rcases Nat.eq_zero_or_pos c with rfl | hpos
  · rfl
  · obtain ⟨m, e, h, hparts, -⟩ := parts_toFloat hpos hlt
    rw [hparts]
    rfl

theorem unpackedOfScientific_ne (c : Nat) (e : Int) :
    UnpackedFloat.ofScientific Format.binary64 c e ≠ .notANumber := by
  unfold UnpackedFloat.ofScientific
  split
  · exact UnpackedFloat.noConfusion
  · split
    · exact UnpackedFloat.noConfusion
    · split
      · exact UnpackedFloat.noConfusion
      · split
        · exact mul_finite_ne rfl _ _ _
        · exact div_finite_ne rfl _ _ _

/-- No numeral has the value `NaN`. -/
theorem parts_ofScientific_ne (c : Nat) (negativeExponent : Bool) (k : Nat) :
    parts (Float.ofScientific c negativeExponent k) ≠ .notANumber := by
  unfold Float.ofScientific
  split
  · next hsmall =>
    have hc := isFinite_toFloat hsmall.1
    obtain ⟨m, e, hpos, hparts, -⟩ :=
      exists_of_isPowerOfTen (isPowerOfTen_table ⟨k, Nat.lt_succ_of_le hsmall.2⟩)
    have hdiv := div_finite_ne hc .positive e hpos
    have hmul := mul_finite_ne hc .positive e hpos
    rw [← hparts] at hdiv hmul
    cases negativeExponent with
    | true => exact parts_ofParts_ne hdiv
    | false => exact parts_ofParts_ne hmul
  · exact parts_ofParts_ne (unpackedOfScientific_ne c _)

end GuardedLisp.Double
