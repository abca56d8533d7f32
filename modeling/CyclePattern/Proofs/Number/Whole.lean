/-
# Whole numbers as floating-point numbers

A number without a fraction has one floating-point value, whether it is read digit by digit with a
scale of its own or converted from the integer that it is. It is above zero just when the integer
is. So it makes no difference at which of the two the reader looks.

Products and quotients with one are exact: a mantissa with its exponent is unchanged when zeros are
put after it and it is rounded to the format.
-/

import CyclePattern.Pattern.Group
import CyclePattern.Proofs.Number.Exact

namespace CyclePattern

open Text Float.Model Float.Model.UnpackedFloat

variable {m : Nat} {e : Int}

/-- Zeros that are shifted out of a mantissa leave no trace. -/
theorem shiftRight_exact (m k : Nat) :
    (⟨m * 2 ^ k, false, false⟩ : ExtendedMantissa) >>> k = ⟨m, false, false⟩ := by
  show Nat.repeat ExtendedMantissa.shiftRightOne k ⟨m * 2 ^ k, false, false⟩ = _
  induction k generalizing m with
  | zero => rw [Nat.repeat, Nat.pow_zero, Nat.mul_one]
  | succ k ih =>
      rw [Nat.repeat, Nat.pow_succ', ← Nat.mul_assoc, ih (m * 2)]
      simp [ExtendedMantissa.shiftRightOne]

theorem log2_mul_two_pow (hpos : 0 < m) (k : Nat) : (m * 2 ^ k).log2 = m.log2 + k := by
  induction k with
  | zero => rw [Nat.pow_zero, Nat.mul_one, Nat.add_zero]
  | succ k ih =>
      have hne : m * 2 ^ k ≠ 0 := Nat.ne_of_gt (Nat.mul_pos hpos (Nat.two_pow_pos k))
      rw [Nat.pow_succ', Nat.mul_left_comm, Nat.log2_two_mul hne, ih, Nat.add_assoc]

theorem Canonical.log2_lt (hm : Canonical m e) (hpos : 0 < m) : m.log2 < 53 :=
  (Nat.log2_lt (Nat.ne_of_gt hpos)).mpr hm.bits

/-- A mantissa with its exponent is the place that the format has for it, however many zeros follow
the mantissa. -/
theorem shiftToTargetExponent_exact (hm : Canonical m e) (hpos : 0 < m) (k : Nat) :
    shiftToTargetExponent Format.binary64 (m * 2 ^ k) (e - k) .exact =
      (⟨m, false, false⟩, e) := by
  have hbits := hm.log2_lt hpos
  have htarget : Format.binary64.targetExponent (totalExponent (m * 2 ^ k) (e - k)) = e := by
    rw [targetExponent_binary64, totalExponent, log2_mul_two_pow hpos]
    have hleast := hm.least
    rcases hm.leading with hlow | hfull
    · omega
    · have hlog : 52 ≤ m.log2 := (Nat.le_log2 (Nat.ne_of_gt hpos)).mpr hfull
      omega
  have hshift : (e - (e - k)).toNat = k := by omega
  rw [shiftToTargetExponent, htarget, shiftToExponent, hshift]
  exact Prod.ext (shiftRight_exact m k) (by show e - k + k = e; omega)

/-- What has a place in the format is not changed by rounding. -/
theorem roundWithAccuracy_exact (hm : Canonical m e) (hpos : 0 < m) (s : Sign) (k : Nat) :
    roundWithAccuracy Format.binary64 s (m * 2 ^ k) (e - k) .exact = .finite s m e hpos := by
  have hagain := shiftToTargetExponent_exact hm hpos 0
  rw [Nat.pow_zero, Nat.mul_one, Int.natCast_zero, Int.sub_zero] at hagain
  have hsame : (⟨m, false, false⟩ : ExtendedMantissa).roundedMantissa = m := rfl
  simp only [roundWithAccuracy, shiftToTargetExponent_exact hm hpos k, hsame, hagain]
  exact dif_neg (Nat.ne_of_gt hpos)

theorem mul_one_contents (hm : Canonical m e) (hpos : 0 < m) (s : Sign) :
    UnpackedFloat.mul Format.binary64 (.finite s m e hpos)
      (.finite .positive (2 ^ 52) (-52) (by decide)) = .finite s m e hpos := by
  rw [UnpackedFloat.mul]
  have hsign : s * .positive = s := by cases s <;> rfl
  rw [hsign]
  exact roundWithAccuracy_exact hm hpos s 52

theorem div_one_contents (hm : Canonical m e) (hpos : 0 < m) (s : Sign) :
    UnpackedFloat.div Format.binary64 (.finite s m e hpos)
      (.finite .positive (2 ^ 52) (-52) (by decide)) = .finite s m e hpos := by
  have hbits := hm.log2_lt hpos
  have hleast := hm.least
  have hsign : s / .positive = s := by cases s <;> rfl
  obtain ⟨k, hk⟩ : ∃ k : Nat, min (e - -52) (Format.binary64.targetExponent
      (totalExponent m e - totalExponent (2 ^ 52) (-52))) = e - k := by
    rw [targetExponent_binary64, totalExponent, totalExponent, Nat.log2_two_pow]
    refine ⟨(e - max (m.log2 + e - 53) (-1074)).toNat, ?_⟩
    omega
  have hshift : (e - -52 - (e - k)).toNat = k + 52 := by omega
  have hcore : divCore Format.binary64 m e (2 ^ 52) (-52) = (m * 2 ^ k, e - k, .exact) := by
    rw [divCore, hk, hshift, Nat.shiftLeft_eq, Nat.pow_add, ← Nat.mul_assoc]
    simp [accuracyOfFraction]
  rw [UnpackedFloat.div, hcore, hsign]
  exact roundWithAccuracy_exact hm hpos s k

/-- A product with one is a quotient by one. -/
theorem mul_one_eq_div_one_float (x : Float) :
    x * Float.ofBits 0x3FF0000000000000 = x / Float.ofBits 0x3FF0000000000000 := by
  show Float.ofModel (Float.Model.pack (UnpackedFloat.mul Format.binary64 x.toModel.unpack
      (Float.ofBits 0x3FF0000000000000).toModel.unpack)) =
    Float.ofModel (Float.Model.pack (UnpackedFloat.div Format.binary64 x.toModel.unpack
      (Float.ofBits 0x3FF0000000000000).toModel.unpack))
  rw [unpack_one]
  cases hcontents : x.toModel.unpack with
  | notANumber => rfl
  | infinity s => cases s <;> rfl
  | zero s => cases s <;> rfl
  | finite s m e hpos =>
      have hm := canonical_of_unpack hcontents
      rw [mul_one_contents hm hpos, div_one_contents hm hpos]

/-- A number without decimal places is the same with a scale of its own and without. -/
theorem ofScientific_whole (n : Nat) : Float.ofScientific n true 0 = Float.ofNat n := by
  show _ = Float.ofScientific n false 0
  unfold Float.ofScientific
  split
  · exact (mul_one_eq_div_one_float n.toUInt64.toFloat).symm
  · rfl

theorem not_aboveZero_packComponents (exponent : BitVec 11) (mantissa : BitVec 52) :
    ¬ AboveZero (UnpackedFloat.unpack Format.binary64
      (packComponents Format.binary64 .negative exponent mantissa)) := by
  unfold UnpackedFloat.unpack
  simp only [unpackMantissa_packComponents, unpackExponent_packComponents,
    unpackSign_packComponents]
  split
  · split <;> exact not_false
  split
  · split <;> exact not_false
  · exact not_false

theorem not_aboveZero_unpack_pack (hpos : 0 < m) :
    ¬ AboveZero (UnpackedFloat.unpack Format.binary64
      (UnpackedFloat.pack Format.binary64 (.finite .negative m e hpos))) := by
  unfold UnpackedFloat.pack
  simp only
  split
  · exact not_aboveZero_packComponents _ _
  split
  · exact not_aboveZero_packComponents _ _
  · exact not_aboveZero_packComponents _ _

/-- The negative of a positive number is not positive. -/
theorem not_neg_pos_float {x : Float} (hx : 0 < x) : ¬ 0 < -x := by
  rw [pos_iff_aboveZero] at hx ⊢
  show ¬ AboveZero (Float.Model.pack x.toModel.unpack.neg).unpack
  rcases hx.eq_infinity_or_finite with hinfinite | ⟨m, e, hm, hfinite⟩
  · rw [hinfinite]
    exact not_false
  · rw [hfinite]
    exact not_aboveZero_unpack_pack hm

namespace Numeral

variable {x : Numeral}

theorem toInt?_of_fraction_eq_none (hwhole : x.fraction = none) : x.toInt? = some x.wholeValue := by
  simp [toInt?, isWhole, hwhole]

theorem toFloat_of_fraction_eq_none (hwhole : x.fraction = none) :
    x.toFloat =
      if x.negative then -Float.ofNat (digitsValue x.whole)
      else Float.ofNat (digitsValue x.whole) := by
  simp [toFloat, hwhole, ofScientific_whole]

/-- A whole number is above zero exactly when its floating-point value is. -/
theorem zero_lt_toFloat_iff (hwhole : x.fraction = none) : 0 < x.toFloat ↔ 0 < x.wholeValue := by
  rw [toFloat_of_fraction_eq_none hwhole, wholeValue]
  rcases Nat.eq_zero_or_pos (digitsValue x.whole) with hzero | hpos
  · rw [hzero]
    cases x.negative <;> decide
  · have hfloat := ofNat_pos_float hpos
    cases x.negative with
    | true =>
        have hinteger : ¬ (0 : Int) < -(digitsValue x.whole : Int) := by omega
        exact iff_of_false (not_neg_pos_float hfloat) hinteger
    | false => exact iff_of_true hfloat (Int.natCast_pos.mpr hpos)

/-- Above zero, the floating-point value of a whole number is that of the integer. -/
theorem toFloat_eq_ofInt (hwhole : x.fraction = none) (hpos : 0 < x.wholeValue) :
    x.toFloat = Float.ofInt x.wholeValue := by
  rw [toFloat_of_fraction_eq_none hwhole, wholeValue]
  cases hsign : x.negative with
  | true =>
      rw [wholeValue, hsign, if_pos rfl] at hpos
      omega
  | false => rfl

end Numeral

/-- The factor of a group is the floating-point value of its number, if that is above zero. -/
theorem GroupSettings.factor?_eq (x : Numeral) :
    ofNumber?.factor? x = if 0 < x.toFloat then some x.toFloat else .none := by
  unfold ofNumber?.factor?
  cases hfraction : x.fraction with
  | none =>
      rw [Numeral.toInt?_of_fraction_eq_none hfraction]
      by_cases hpos : 0 < x.wholeValue
      · rw [if_pos ((Numeral.zero_lt_toFloat_iff hfraction).mpr hpos),
          Numeral.toFloat_eq_ofInt hfraction hpos]
        exact if_pos hpos
      · rw [if_neg (mt (Numeral.zero_lt_toFloat_iff hfraction).mp hpos)]
        exact if_neg hpos
  | some digits =>
      have hnone : x.toInt? = .none := by simp [Numeral.toInt?, Numeral.isWhole, hfraction]
      rw [hnone]

end CyclePattern
