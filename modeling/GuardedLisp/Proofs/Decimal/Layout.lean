import GuardedLisp.Proofs.Decimal.Shortest
import GuardedLisp.Proofs.Lexing.Grammar

/-!
# Numbers in plain digits are read back

The text of a finite number is the spelling of a numeral: an optional sign,
digits, and digits behind a point where there are any (`exists_spelling`). Its
value is that number, to the last bit. An infinite number is no numeral but
a word.
-/

namespace GuardedLisp.Decimal

open Double
open Source (NumeralSpelling)
open Float.Model (UnpackedFloat)
open Float.Model.UnpackedFloat (Sign)

/-! ## Digits -/

theorem digitsValue_eq (digits : List Char) : digitsValue digits = Nat.ofDigitChars 10 digits 0 :=
  Nat.ofDigitChars_eq_foldl.symm

theorem digitsValue_toDigits (n : Nat) : digitsValue (Nat.toDigits 10 n) = n := by
  rw [digitsValue_eq, Nat.ofDigitChars_ten_toDigits]

theorem digitsValue_zeros_append (k : Nat) (digits : List Char) :
    digitsValue (List.replicate k '0' ++ digits) = digitsValue digits := by
  rw [digitsValue_eq, digitsValue_eq, Nat.ofDigitChars_append, Nat.ofDigitChars_replicate_zero,
    Nat.mul_zero]

theorem digitsValue_append_zeros (digits : List Char) (k : Nat) :
    digitsValue (digits ++ List.replicate k '0') = digitsValue digits * powerOfTen k := by
  rw [digitsValue_eq, digitsValue_eq, Nat.ofDigitChars_append, Nat.ofDigitChars_replicate_zero,
    Nat.mul_comm, powerOfTen_eq]

theorem isDigit_of_mem_toDigits {n : Nat} {c : Char} (h : c ∈ Nat.toDigits 10 n) :
    isDigit c = true :=
  Nat.isDigit_of_mem_toDigits (by decide) (by decide) h

theorem isDigit_of_mem_zeros {n : Int} {c : Char} (h : c ∈ Layout.zeros n) : isDigit c = true := by
  rw [List.eq_of_mem_replicate h]
  rfl

/-! ## Spellings -/

namespace Numeral

/-- Where the point stands: so many digits are in front of it. -/
def place (n : Numeral) : Int := n.exponent + (Nat.toDigits 10 n.coefficient).length

/-- How a numeral is spelled with all its digits in place. -/
def spelling (n : Numeral) : NumeralSpelling :=
  let digits := Nat.toDigits 10 n.coefficient
  if n.place ≤ 0 then ⟨n.negative, ['0'], true, Layout.zeros (-n.place) ++ digits⟩
  else if n.place < digits.length then
    ⟨n.negative, digits.take n.place.toNat, true, digits.drop n.place.toNat⟩
  else ⟨n.negative, digits ++ Layout.zeros (n.place - digits.length), false, []⟩

theorem text_spelling (n : Numeral) : n.spelling.text =
    (if n.negative then ['-'] else []) ++
      Layout.plain.positional (Nat.toDigits 10 n.coefficient) n.place := by
  unfold spelling Layout.positional
  dsimp only
  split
  · simp [NumeralSpelling.text]
  · split <;> simp [NumeralSpelling.text, Layout.plain]

theorem isProper_spelling (n : Numeral) : n.spelling.IsProper := by
  have hne : Nat.toDigits 10 n.coefficient ≠ [] := Nat.toDigits_ne_nil
  have hdigits : ∀ c ∈ Nat.toDigits 10 n.coefficient, isDigit c = true :=
    fun _ => isDigit_of_mem_toDigits
  unfold spelling
  dsimp only
  split
  · refine ⟨List.cons_ne_nil _ _, by simp [isDigit], fun c hc => ?_, fun h => by cases h⟩
    exact (List.mem_append.1 hc).elim isDigit_of_mem_zeros (hdigits c)
  · split
    · refine ⟨fun h => ?_, fun c hc => hdigits c (List.mem_of_mem_take hc),
        fun c hc => hdigits c (List.mem_of_mem_drop hc), fun h => by cases h⟩
      rcases List.take_eq_nil_iff.1 h with hplace | hnil
      · omega
      · exact hne hnil
    · refine ⟨fun h => hne (List.append_eq_nil_iff.1 h).1, fun c hc => ?_, by simp, fun _ => rfl⟩
      exact (List.mem_append.1 hc).elim (hdigits c) isDigit_of_mem_zeros

section Places

variable (negative : Bool) (digits : List Char)

theorem ofDigits_zeros_append (k : Int) :
    ofDigits negative ['0'] (Layout.zeros k ++ digits) =
      ⟨negative, digitsValue digits, -(k.toNat + digits.length : Nat)⟩ := by
  have hvalue : digitsValue (['0'] ++ (Layout.zeros k ++ digits)) = digitsValue digits := by
    rw [← digitsValue_zeros_append (k.toNat + 1) digits, List.replicate_succ]
    rfl
  rw [ofDigits, hvalue, List.length_append, Layout.zeros, List.length_replicate]

theorem ofDigits_take_drop (k : Nat) :
    ofDigits negative (digits.take k) (digits.drop k) =
      ⟨negative, digitsValue digits, -(digits.length - k : Nat)⟩ := by
  rw [ofDigits, List.take_append_drop, List.length_drop]

theorem ofDigits_append_zeros (k : Int) :
    ofDigits negative (digits ++ Layout.zeros k) [] =
      ⟨negative, digitsValue digits * powerOfTen k.toNat, 0⟩ := by
  rw [ofDigits, List.append_nil, Layout.zeros, digitsValue_append_zeros]
  rfl

end Places

/-- The digits in place are those of the numeral written out. -/
theorem ofDigits_spelling (n : Numeral) :
    ofDigits n.negative n.spelling.whole n.spelling.fraction = n.writtenOut := by
  have hvalue := digitsValue_toDigits n.coefficient
  have hplace : n.place = n.exponent + (Nat.toDigits 10 n.coefficient).length := rfl
  have hlength : 0 < (Nat.toDigits 10 n.coefficient).length := Nat.length_toDigits_pos
  unfold spelling writtenOut
  dsimp only
  split
  · next hle =>
    have hexponent : -((-n.place).toNat + (Nat.toDigits 10 n.coefficient).length : Nat) =
        n.exponent := by omega
    rw [ofDigits_zeros_append, hvalue, hexponent, if_neg (by omega)]
  · split
    · have hexponent : -((Nat.toDigits 10 n.coefficient).length - n.place.toNat : Nat) =
          n.exponent := by omega
      rw [ofDigits_take_drop, hvalue, hexponent, if_neg (by omega)]
    · have hzeros : (n.place - (Nat.toDigits 10 n.coefficient).length).toNat =
          n.exponent.natAbs := by omega
      rw [ofDigits_append_zeros, hvalue, hzeros]
      split
      · rfl
      · have hzero : n.exponent = 0 := by omega
        obtain ⟨negative, coefficient, exponent⟩ := n
        subst hzero
        simp [powerOfTen]

theorem value_spelling (n : Numeral) : n.spelling.value = n.writtenOut.value := by
  have hnegative : n.spelling.negative = n.negative := by
    unfold spelling
    dsimp only
    split
    · rfl
    · split <;> rfl
  rw [NumeralSpelling.value, hnegative, ofDigits_spelling]

end Numeral

/-! ## Texts of numbers -/

namespace Layout

/-- A number without its sign. -/
def unsigned (x : Float) : Float := if isNegative x then -x else x

theorem parts_unsigned {x : Float} (hx : parts x ≠ .notANumber) :
    parts (unsigned x) = (parts x).abs := by
  have hsign := isNegative_iff hx
  unfold unsigned
  cases h : parts x with
  | notANumber => exact absurd h hx
  | infinity s | zero s | finite s =>
    rw [h] at hsign
    cases s with
    | negative => rw [if_pos (hsign.2 rfl), parts_neg, h]; rfl
    | positive =>
      rw [if_neg (fun hneg => Sign.noConfusion (hsign.1 hneg)), h]
      rfl

theorem neg_neg (x : Float) : - -x = x := by
  refine parts_injective ?_
  rw [parts_neg, parts_neg]
  cases parts x with
  | notANumber => rfl
  | infinity s | zero s | finite s => cases s <;> rfl

theorem signed_unsigned (x : Float) : (if isNegative x then -unsigned x else unsigned x) = x := by
  unfold unsigned
  split
  · exact neg_neg x
  · rfl

theorem text_eq {x : Float} (hx : parts x ≠ .notANumber) (l : Layout) :
    l.text x = String.ofList ((if isNegative x then ['-'] else []) ++
      if (parts x).isInf then ['i', 'n', 'f'] else l.magnitudeText (unsigned x)) := by
  have hnan : x.isNaN = false := isNaN_eq_false_iff.2 hx
  have hinf : (unsigned x).isInf = (parts x).isInf := by
    show (parts (unsigned x)).isInf = _
    rw [parts_unsigned hx]
    cases parts x <;> rfl
  have hbody : (if (unsigned x).isInf then ['i', 'n', 'f'] else l.magnitudeText (unsigned x)) =
      if (parts x).isInf then ['i', 'n', 'f'] else l.magnitudeText (unsigned x) := by rw [hinf]
  rw [text, if_neg (Bool.eq_false_iff.1 hnan), ← hbody]
  cases hneg : isNegative x <;> simp [unsigned, hneg]

theorem text_of_finite {x : Float} {s : Sign} {m : Nat} {e : Int} {hpos : 0 < m}
    (hx : parts x = .finite s m e hpos) :
    ∃ n : NumeralSpelling, n.IsProper ∧ plain.text x = String.ofList n.text ∧ n.value = x := by
  have hne : parts x ≠ .notANumber := by simp [hx]
  have hunsigned : parts (unsigned x) = .finite .positive m e hpos := by
    rw [parts_unsigned hne, hx]
    rfl
  let n : Numeral := { shortest (unsigned x) with negative := isNegative x }
  have hmagnitude : n.writtenOut.magnitude = unsigned x := by
    rw [← magnitude_shortest hunsigned]
    simp only [Numeral.writtenOut, n]
    split <;> rfl
  have hnegative : n.writtenOut.negative = isNegative x := by
    simp only [Numeral.writtenOut, n]
    split <;> rfl
  have hzero : (unsigned x == 0.0) = false := by
    show (parts (unsigned x)).beq (.zero .positive) = false
    rw [hunsigned]
    rfl
  refine ⟨n.spelling, n.isProper_spelling, ?_, ?_⟩
  · rw [text_eq hne, hx, n.text_spelling]
    simp only [UnpackedFloat.isInf, magnitudeText, hzero]
    rfl
  · rw [n.value_spelling, Numeral.value, hnegative, hmagnitude, signed_unsigned]

theorem text_of_zero {x : Float} {s : Sign} (hx : parts x = .zero s) :
    ∃ n : NumeralSpelling, n.IsProper ∧ plain.text x = String.ofList n.text ∧ n.value = x := by
  have hne : parts x ≠ .notANumber := by simp [hx]
  have hunsigned : parts (unsigned x) = .zero .positive := by
    rw [parts_unsigned hne, hx]
    rfl
  have hzero : (unsigned x == 0.0) = true := by
    show (parts (unsigned x)).beq (.zero .positive) = true
    rw [hunsigned]
    rfl
  refine ⟨⟨isNegative x, ['0'], false, []⟩, ?_, ?_, ?_⟩
  · exact ⟨List.cons_ne_nil _ _, by simp [isDigit], by simp, fun _ => rfl⟩
  · rw [text_eq hne, hx]
    simp [UnpackedFloat.isInf, magnitudeText, hzero, NumeralSpelling.text, plain]
  · have hmagnitude : (Numeral.ofDigits (isNegative x) ['0'] []).magnitude = unsigned x := by
      refine parts_injective ?_
      rw [hunsigned]
      show parts (Float.ofScientific 0 false 0) = _
      rfl
    rw [NumeralSpelling.value, Numeral.value, hmagnitude]
    exact signed_unsigned x

theorem text_of_isInf {x : Float} (h : x.isInf = true) :
    plain.text x = "inf" ∨ plain.text x = "-inf" := by
  have hinf : (parts x).isInf = true := h
  have hne : parts x ≠ .notANumber := by
    intro hnan
    rw [hnan] at hinf
    cases hinf
  rw [text_eq hne, if_pos hinf]
  cases isNegative x
  · exact .inl rfl
  · exact .inr rfl

end Layout

/-- No numeral has the value `NaN`. -/
theorem Numeral.isNaN_value (n : Numeral) : n.value.isNaN = false := by
  have hmagnitude : parts n.magnitude ≠ .notANumber := by
    unfold magnitude
    split <;> exact parts_ofScientific_ne _ _ _
  have hvalue : parts n.value ≠ .notANumber := by
    unfold value
    split
    · rw [parts_neg]
      cases h : parts n.magnitude <;> simp_all [UnpackedFloat.neg]
    · exact hmagnitude
  exact isNaN_eq_false_iff.2 hvalue

/-- The text of a finite number is that of a numeral, and its value is that number. -/
theorem exists_spelling {x : Float} (hnan : x.isNaN = false) (hinf : x.isInf = false) :
    ∃ n : NumeralSpelling, n.IsProper ∧ Layout.plain.text x = String.ofList n.text ∧
      n.value = x := by
  cases hx : parts x with
  | finite => exact Layout.text_of_finite hx
  | zero => exact Layout.text_of_zero hx
  | infinity =>
    have h : x.isInf = (parts x).isInf := rfl
    rw [h, hx] at hinf
    cases hinf
  | notANumber => exact absurd hx (isNaN_eq_false_iff.1 hnan)

end GuardedLisp.Decimal
