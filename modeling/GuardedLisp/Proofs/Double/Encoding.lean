import GuardedLisp.Decimal.Layout
import Mathlib

/-!
# Doubles as sign, mantissa and exponent

A double is either infinite, `NaN`, a zero, or `± m · 2 ^ e` with the mantissa
and the exponent that its fields allow (`Canonical`). The fields stand for these
parts (`Encodes`), so that a double is determined by its parts (`ofParts_parts`)
and all parts that the fields allow are those of a double (`parts_ofParts`).
-/

namespace GuardedLisp.Double

open Float.Model UnpackedFloat
open Decimal (Layout fractionBits magnitudeOf)

/-- Sign, mantissa and exponent of a double. -/
def parts (x : Float) : UnpackedFloat := x.toModel.unpack

/-- The double with these parts. -/
def ofParts (u : UnpackedFloat) : Float := .ofModel (.pack u)

/-- The mantissa and the exponent that a double has for a number that is not zero. -/
structure Canonical (m : Nat) (e : Int) : Prop where
  pos : 0 < m
  lt : m < 2 ^ 53
  ge : -1074 ≤ e
  le : e ≤ 971
  full : 2 ^ 52 ≤ m ∨ e = -1074

/-- The parts are those of some double. -/
def IsPacked : UnpackedFloat → Prop
  | .finite _ m e _ => Canonical m e
  | _ => True

/-! ## Bits -/

section Bits

variable (b : BitVec 64)

theorem toNat_unpackMantissa : (@unpackMantissa Format.binary64 b).toNat = b.toNat % 2 ^ 52 := by
  simp [unpackMantissa, BitVec.extractLsb, BitVec.extractLsb']

theorem toNat_unpackExponent :
    (@unpackExponent Format.binary64 b).toNat = b.toNat >>> 52 % 2 ^ 11 := by
  simp [unpackExponent, BitVec.extractLsb, BitVec.extractLsb']

theorem toNat_unpackSign : (@unpackSign Format.binary64 b).toNat = b.toNat >>> 63 := by
  have hb : b.toNat < 2 ^ 64 := b.isLt
  simp [unpackSign, BitVec.extractLsb, BitVec.extractLsb']
  omega

theorem toNat_implicit (m : BitVec 52) : (1#1 ++ m).toNat = 2 ^ 52 + m.toNat := by
  rw [BitVec.toNat_append, ← Nat.shiftLeft_add_eq_or_of_lt m.isLt]
  rfl

end Bits

/-! ## Parts -/

/-- The parts that the fields of a double stand for. -/
inductive Encodes (s : Sign) : BitVec 11 → BitVec 52 → UnpackedFloat → Prop where
  | infinity : Encodes s (-1#11) 0#52 (.infinity s)
  | notANumber {fraction : BitVec 52} (h : fraction ≠ 0#52) :
    Encodes s (-1#11) fraction .notANumber
  | zero : Encodes s 0#11 0#52 (.zero s)
  | subnormal {fraction : BitVec 52} {m : Nat} (hpos : 0 < m) (hm : m = fraction.toNat) :
    Encodes s 0#11 fraction (.finite s m (-1074) hpos)
  | normal {field : BitVec 11} {fraction : BitVec 52} {m : Nat} {e : Int} (hpos : 0 < m)
    (hzero : field ≠ 0#11) (hones : field ≠ -1#11) (hm : m = 2 ^ 52 + fraction.toNat)
    (he : e = field.toNat - 1075) : Encodes s field fraction (.finite s m e hpos)

section Fields

variable {s : Sign} {field : BitVec 11} {fraction : BitVec 52} {u : UnpackedFloat}

theorem toNat_field_lt (h : field ≠ -1#11) : field.toNat < 2047 := by
  have hne : field.toNat ≠ 2047 := fun heq => h (BitVec.eq_of_toNat_eq heq)
  have hlt := field.isLt
  omega

theorem exists_encodes (s : Sign) (field : BitVec 11) (fraction : BitVec 52) :
    ∃ u, Encodes s field fraction u := by
  by_cases hones : field = -1#11
  · subst hones
    by_cases hfraction : fraction = 0#52
    · exact hfraction ▸ ⟨_, .infinity⟩
    · exact ⟨_, .notANumber hfraction⟩
  by_cases hzero : field = 0#11
  · subst hzero
    by_cases hfraction : fraction = 0#52
    · exact hfraction ▸ ⟨_, .zero⟩
    · exact ⟨_, .subnormal (BitVec.toNat_pos_of_ne_zero hfraction) rfl⟩
  exact ⟨_, .normal (by omega) hzero hones rfl rfl⟩

namespace Encodes

theorem unpack_eq (h : Encodes s field fraction u) :
    unpack Format.binary64 (packComponents Format.binary64 s field fraction) = u := by
  unfold UnpackedFloat.unpack
  simp only [unpackMantissa_packComponents, unpackExponent_packComponents,
    unpackSign_packComponents, Sign.ofBitVec_toBitVec]
  cases h with
  | infinity | zero => rfl
  | notANumber h => simp [h]
  | subnormal hpos hm =>
    have hne : fraction ≠ 0#52 := by
      rintro rfl
      exact absurd hm (Nat.ne_of_gt hpos)
    subst hm
    simp [hne]
    rfl
  | normal hpos hzero hones hm he =>
    have hbias : Format.binary64.exponentBias = 1023 := rfl
    simp only [hzero, hones, if_false, hbias]
    congr 1
    · exact (toNat_implicit fraction).trans hm.symm
    · omega

theorem isPacked (h : Encodes s field fraction u) : IsPacked u := by
  have hfraction := fraction.isLt
  cases h with
  | infinity | notANumber | zero => trivial
  | subnormal hpos hm => exact ⟨hpos, by omega, by omega, by omega, .inr rfl⟩
  | normal hpos hzero hones hm he =>
    have hlow := BitVec.toNat_pos_of_ne_zero hzero
    have hhigh := toNat_field_lt hones
    exact ⟨hpos, by omega, by omega, by omega, .inl (by omega)⟩

theorem of_notANumber (h : Encodes s field fraction .notANumber) :
    field = -1#11 ∧ fraction ≠ 0#52 := by
  cases h with
  | notANumber h => exact ⟨rfl, h⟩

end Encodes

theorem pack_finite (s : Sign) (m : Nat) (e : Int) (hm : 0 < m) :
    UnpackedFloat.pack Format.binary64 (.finite s m e hm) =
      if 2 ^ 11 ≤ (e + 1075).toNat + 1 then packedInfinity Format.binary64 s
      else if m.log2 = 52 then
        packComponents Format.binary64 s (BitVec.ofNat 11 (e + 1075).toNat) (BitVec.ofNat 52 m)
      else packComponents Format.binary64 s 0#11 (BitVec.ofNat 52 m) := by
  have hbias : e + ((2 ^ (11 - 1) - 1 : Nat) : Int) + (52 : Nat) = e + 1075 := by omega
  have hwidth : m.log2 + 1 = 1 + 52 ↔ m.log2 = 52 := by omega
  simp only [UnpackedFloat.pack, Format.exponentBias, Format.mantissaBits, hbias, hwidth]

/-- The parts of a double are those of its fields. -/
theorem IsPacked.exists_encodes (h : IsPacked u) :
    ∃ s field fraction, Encodes s field fraction u := by
  match u, h with
  | .infinity s, _ => exact ⟨s, _, _, .infinity⟩
  | .notANumber, _ => exact ⟨.positive, _, 1#52, .notANumber (by decide)⟩
  | .zero s, _ => exact ⟨s, _, _, .zero⟩
  | .finite s m e hpos, ⟨_, hlt, hge, hle, hfull⟩ =>
    by_cases hnormal : 2 ^ 52 ≤ m
    · have hfield : (BitVec.ofNat 11 (e + 1075).toNat).toNat = (e + 1075).toNat :=
        Nat.mod_eq_of_lt (by omega)
      refine ⟨s, BitVec.ofNat 11 (e + 1075).toNat, BitVec.ofNat 52 m,
        .normal hpos (fun h => ?_) (fun h => ?_) ?_ ?_⟩
      · have hzero : (e + 1075).toNat = 0 := hfield.symm.trans (congrArg BitVec.toNat h)
        omega
      · have hones : (e + 1075).toNat = 2047 := hfield.symm.trans (congrArg BitVec.toNat h)
        omega
      · rw [BitVec.toNat_ofNat]
        omega
      · omega
    · obtain rfl := hfull.resolve_left hnormal
      have hm : (BitVec.ofNat 52 m).toNat = m := by
        rw [BitVec.toNat_ofNat, Nat.mod_eq_of_lt (by omega)]
      exact ⟨s, _, _, .subnormal hpos hm.symm⟩

end Fields

theorem encodes_unpack (b : BitVec 64) :
    Encodes (Sign.ofBitVec (@unpackSign Format.binary64 b)) (@unpackExponent Format.binary64 b)
      (@unpackMantissa Format.binary64 b) (unpack Format.binary64 b) := by
  obtain ⟨u, hu⟩ := exists_encodes (Sign.ofBitVec (@unpackSign Format.binary64 b))
    (@unpackExponent Format.binary64 b) (@unpackMantissa Format.binary64 b)
  have hunpack := hu.unpack_eq
  rw [packComponents_unpackSign_unpackExponent_unpackMantissa] at hunpack
  rwa [hunpack]

theorem isPacked_parts (x : Float) : IsPacked (parts x) := (encodes_unpack _).isPacked

theorem canonical_of_parts {x : Float} {s : Sign} {m : Nat} {e : Int} {hpos : 0 < m}
    (hx : parts x = .finite s m e hpos) : Canonical m e := by
  have hpacked := isPacked_parts x
  rwa [hx] at hpacked

theorem unpack_of_isNaNBits {b : BitVec 64} (h : @isNaNBits Format.binary64 b = true) :
    unpack Format.binary64 b = .notANumber := by
  simp only [isNaNBits, decide_eq_true_iff] at h
  simp [UnpackedFloat.unpack, h]

theorem isNaN_eq_false_iff {x : Float} : x.isNaN = false ↔ parts x ≠ .notANumber := by
  rw [← Bool.not_eq_true]
  exact not_congr isNaN_iff

theorem ofParts_parts (x : Float) : ofParts (parts x) = x := by
  obtain ⟨⟨bits, hvalid⟩⟩ := x
  simp only [ofParts, parts, Float.Model.pack, Float.Model.unpack, pack_unpack_of_valid hvalid]

theorem parts_ofParts {u : UnpackedFloat} (h : IsPacked u) : parts (ofParts u) = u := by
  show unpack Format.binary64 (UnpackedFloat.pack Format.binary64 u) = u
  obtain ⟨s, field, fraction, henc⟩ := h.exists_encodes
  rw [← henc.unpack_eq, pack_unpack]
  split
  · next hnan => rw [unpack_packedNaN, unpack_of_isNaNBits hnan]
  · rfl

theorem parts_injective : Function.Injective parts :=
  Function.LeftInverse.injective ofParts_parts

theorem parts_packComponents_ne {b : BitVec 64} {s : Sign} {field : BitVec 11}
    {fraction : BitVec 52} (hb : b = packComponents Format.binary64 s field fraction)
    (h : field ≠ -1#11 ∨ fraction = 0#52) : unpack Format.binary64 b ≠ .notANumber := by
  obtain ⟨u, hu⟩ := exists_encodes s field fraction
  rw [hb, hu.unpack_eq]
  rintro rfl
  exact h.elim (absurd hu.of_notANumber.1) hu.of_notANumber.2

/-- Only `NaN` is stored as `NaN`. -/
theorem parts_ofParts_ne {u : UnpackedFloat} (hu : u ≠ .notANumber) :
    parts (ofParts u) ≠ .notANumber := by
  show unpack Format.binary64 (UnpackedFloat.pack Format.binary64 u) ≠ .notANumber
  cases u with
  | notANumber => exact absurd rfl hu
  | infinity s => exact parts_packComponents_ne rfl (.inr rfl)
  | zero s => exact parts_packComponents_ne rfl (.inr rfl)
  | finite s m e hpos =>
    rw [pack_finite]
    split
    · exact parts_packComponents_ne rfl (.inr rfl)
    · next hlt =>
      split
      · refine parts_packComponents_ne rfl (.inl fun hones => ?_)
        have hfield := congrArg BitVec.toNat hones
        rw [BitVec.toNat_ofNat, Nat.mod_eq_of_lt (by omega)] at hfield
        exact hlt (Nat.le_of_eq (congrArg (· + 1) hfield.symm))
      · exact parts_packComponents_ne rfl (.inl (by decide))

/-! ## Signs -/

theorem IsPacked.neg {u : UnpackedFloat} (h : IsPacked u) : IsPacked u.neg := by
  cases u with
  | finite => exact h
  | _ => trivial

theorem parts_neg (x : Float) : parts (-x) = (parts x).neg := parts_ofParts (isPacked_parts x).neg

/-- The sign of a double; that of `NaN` is never written. -/
def signOf : UnpackedFloat → Sign
  | .infinity s | .zero s | .finite s .. => s
  | .notANumber => .positive

theorem Encodes.signOf_eq {s : Sign} {field : BitVec 11} {fraction : BitVec 52}
    {u : UnpackedFloat} (h : Encodes s field fraction u) (hu : u ≠ .notANumber) :
    signOf u = s := by
  cases h with
  | notANumber => exact absurd rfl hu
  | _ => rfl

theorem isNegative_iff {x : Float} (hx : parts x ≠ .notANumber) :
    Layout.isNegative x = true ↔ signOf (parts x) = .negative := by
  have hsign := (encodes_unpack x.toBits.toBitVec).signOf_eq hx
  have hbit := toNat_unpackSign x.toBits.toBitVec
  have hzero : @unpackSign Format.binary64 x.toBits.toBitVec = 0#1 ↔ x.toBits.toNat < 2 ^ 63 := by
    rw [← BitVec.toNat_inj, hbit, Nat.shiftRight_eq_div_pow]
    exact Nat.div_eq_zero_iff_lt (by decide)
  have hneg : signOf (parts x) = .negative ↔ ¬ x.toBits.toNat < 2 ^ 63 := by
    rw [← hzero]
    refine (show signOf (parts x) = _ from hsign) ▸ ?_
    unfold Sign.ofBitVec
    split <;> simp_all
  rw [hneg, Nat.not_lt, Layout.isNegative, decide_eq_true_iff]
  rfl

/-! ## Magnitudes -/

theorem Encodes.of_finite {s s' : Sign} {field : BitVec 11} {fraction : BitVec 52} {m : Nat}
    {e : Int} {hpos : 0 < m} (h : Encodes s field fraction (.finite s' m e hpos)) :
    field = 0#11 ∧ m = fraction.toNat ∧ e = -1074 ∨
      field ≠ 0#11 ∧ m = 2 ^ 52 + fraction.toNat ∧ e = field.toNat - 1075 := by
  cases h with
  | subnormal _ hm => exact .inl ⟨rfl, hm, rfl⟩
  | normal _ hzero _ hm he => exact .inr ⟨hzero, hm, he⟩

theorem magnitudeOf_eq {x : Float} {s : Sign} {m : Nat} {e : Int} {hpos : 0 < m}
    (hx : parts x = .finite s m e hpos) :
    magnitudeOf x = if e < 0 then ⟨m, 1 <<< e.natAbs⟩ else ⟨m <<< e.natAbs, 1⟩ := by
  have henc := encodes_unpack x.toBits.toBitVec
  have hunpack : unpack Format.binary64 x.toBits.toBitVec = .finite s m e hpos := hx
  rw [hunpack] at henc
  have hfield : x.toBits.toNat >>> fractionBits % (1 <<< 11) = _ :=
    (toNat_unpackExponent x.toBits.toBitVec).symm
  have hfraction : x.toBits.toNat % (1 <<< fractionBits) = _ :=
    (toNat_unpackMantissa x.toBits.toBitVec).symm
  have hone : 1 <<< fractionBits = 2 ^ 52 := rfl
  simp only [magnitudeOf, hfield, hfraction]
  simp only [hone]
  rcases henc.of_finite with ⟨hzero, rfl, he⟩ | ⟨hzero, rfl, he⟩
  · have hfieldZero : (@unpackExponent Format.binary64 x.toBits.toBitVec).toNat = 0 :=
      congrArg BitVec.toNat hzero
    have hexponent : e.natAbs = 1074 := by omega
    rw [if_pos hfieldZero, if_pos (by omega), hexponent]
  · have hfieldPos := BitVec.toNat_pos_of_ne_zero hzero
    generalize (@unpackExponent Format.binary64 x.toBits.toBitVec).toNat = field at he hfieldPos
    rw [if_neg (Nat.ne_of_gt hfieldPos)]
    split
    · have hexponent : e.natAbs = 1075 - field := by omega
      rw [if_pos (by omega), hexponent]
    · have hexponent : e.natAbs = field - 1075 := by omega
      rw [if_neg (by omega), hexponent]

/-- Doubles that compare as equal are the same, but for the two zeros. -/
theorem eq_of_beq_finite {x y : Float} (h : (x == y) = true) {s : Sign} {m : Nat} {e : Int}
    {hpos : 0 < m} (hy : parts y = .finite s m e hpos) : x = y := by
  have hparts : ((parts x).beq (parts y)) = true := h
  rw [beq_iff_ne_notANumber_and_eq, hy] at hparts
  rcases hparts with ⟨-, -, heq | ⟨-, hzero⟩ | ⟨-, hzero⟩⟩
  · exact parts_injective (heq.trans hy.symm)
  · cases hzero
  · cases hzero

end GuardedLisp.Double
