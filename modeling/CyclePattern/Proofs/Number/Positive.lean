/-
# Positive floating-point numbers

Rounding takes no positive number to zero that is at least as large as the least positive number of
the format. Sums of positive numbers are, and so is every positive integer; they come out positive,
or infinite when they are beyond every finite number.

A number is looked at through its contents: the sign, and where it is finite the mantissa and the
exponent. The least exponent of a number in double precision is -1074, and a mantissa has at most 53
bits.
-/

import CyclePattern.Number.Measure
import Mathlib

namespace CyclePattern

open Float.Model Float.Model.UnpackedFloat

/-- Whether the contents of a number say that it is above zero. -/
def AboveZero : UnpackedFloat → Prop
  | .infinity .positive => True
  | .finite .positive _ _ _ => True
  | _ => False

theorem unpack_zero : (0 : Float).toModel.unpack = .zero .positive :=
  rfl

theorem AboveZero.eq_infinity_or_finite {contents : UnpackedFloat} (hpos : AboveZero contents) :
    contents = .infinity .positive ∨ ∃ m e hm, contents = .finite .positive m e hm := by
  cases contents with
  | infinity s =>
      cases s with
      | positive => exact .inl rfl
      | negative => cases hpos
  | finite s m e hm =>
      cases s with
      | positive => exact .inr ⟨m, e, hm, rfl⟩
      | negative => cases hpos
  | _ => cases hpos

theorem zero_lt_iff (contents : UnpackedFloat) :
    UnpackedFloat.lt (.zero .positive) contents = true ↔ AboveZero contents := by
  cases contents with
  | notANumber => simp [UnpackedFloat.lt, UnpackedFloat.compare, AboveZero]
  | infinity s => cases s <;> simp [UnpackedFloat.lt, UnpackedFloat.compare, AboveZero]
  | zero s => cases s <;> simp [UnpackedFloat.lt, UnpackedFloat.compare, AboveZero]
  | finite s m e hm => cases s <;> simp [UnpackedFloat.lt, UnpackedFloat.compare, AboveZero]

theorem pos_iff_aboveZero {x : Float} : 0 < x ↔ AboveZero x.toModel.unpack := by
  show decide (UnpackedFloat.lt (0 : Float).toModel.unpack x.toModel.unpack = true) = true ↔ _
  rw [decide_eq_true_iff, unpack_zero]
  exact zero_lt_iff x.toModel.unpack

theorem beq_zero_eq_false {x : Float} (hx : 0 < x) : (x == 0) = false := by
  rw [pos_iff_aboveZero] at hx
  show UnpackedFloat.beq x.toModel.unpack (0 : Float).toModel.unpack = false
  rw [unpack_zero]
  cases hcontents : x.toModel.unpack with
  | infinity s => cases s <;> rfl
  | notANumber => rfl
  | zero s =>
      rw [hcontents] at hx
      cases hx
  | finite s m e hm => cases s <;> rfl

theorem aboveZero_unpack_packComponents {exponent : BitVec 11} {mantissa : BitVec 52}
    (hfinite : exponent ≠ -1#11) (hnonzero : exponent ≠ 0#11 ∨ mantissa ≠ 0#52) :
    AboveZero (UnpackedFloat.unpack Format.binary64
      (packComponents Format.binary64 .positive exponent mantissa)) := by
  unfold UnpackedFloat.unpack
  simp only [unpackMantissa_packComponents, unpackExponent_packComponents,
    unpackSign_packComponents]
  rw [if_neg hfinite]
  split
  · next hexponent =>
      have hmantissa := hnonzero.resolve_left (not_not_intro hexponent)
      rw [dif_neg hmantissa]
      trivial
  · trivial

/-- Contents above zero stay above zero when they are packed, at whatever exponent from the least
one on. -/
theorem aboveZero_unpack_pack {m : Nat} {e : Int} (hm : 0 < m) (hbits : m < 2 ^ 53)
    (hleast : -1074 ≤ e) :
    AboveZero (UnpackedFloat.unpack Format.binary64
      (UnpackedFloat.pack Format.binary64 (.finite .positive m e hm))) := by
  unfold UnpackedFloat.pack
  simp only
  split
  · trivial
  next hexponent =>
  have hbias : Format.binary64.exponentBias = 1023 := by decide
  rw [hbias] at hexponent ⊢
  simp only [Nat.not_le] at hexponent
  split
  · apply aboveZero_unpack_packComponents
    · intro hall
      have hnat := congrArg BitVec.toNat hall
      simp at hnat
      omega
    · left
      intro hnone
      have hnat := congrArg BitVec.toNat hnone
      simp at hnat
      omega
  · next hshort =>
      have hlog : m.log2 < 52 := by
        have hlt : m.log2 < 53 := (Nat.log2_lt (Nat.ne_of_gt hm)).mpr hbits
        have hmantissa : Format.binary64.mantissaBits = 53 := by decide
        omega
      have hsmall : m < 2 ^ 52 := (Nat.log2_lt (Nat.ne_of_gt hm)).mp hlog
      apply aboveZero_unpack_packComponents (by decide)
      right
      intro hnone
      have hnat := congrArg BitVec.toNat hnone
      simp at hnat
      omega

theorem targetExponent_binary64 (total : Int) :
    Format.binary64.targetExponent total = max (total - 53) (-1074) := by
  rfl

theorem mantissa_shiftRight (contents : ExtendedMantissa) (n : Nat) :
    (contents >>> n).mantissa = contents.mantissa / 2 ^ n := by
  show (Nat.repeat ExtendedMantissa.shiftRightOne n contents).mantissa = _
  induction n with
  | zero => rw [Nat.repeat, Nat.pow_zero, Nat.div_one]
  | succ n ih => rw [Nat.repeat, ExtendedMantissa.shiftRightOne, ih, Nat.div_div_eq_div_mul,
      Nat.pow_succ]

theorem mantissa_ofMantissaAndAccuracy (m : Nat) (accuracy : Accuracy) :
    (ExtendedMantissa.ofMantissaAndAccuracy m accuracy).mantissa = m := by
  cases accuracy with
  | exact => rfl
  | inexact order => cases order <;> rfl

/-- The bits that are dropped round a mantissa up, if they change it. -/
theorem mantissa_le_roundedMantissa (contents : ExtendedMantissa) :
    contents.mantissa ≤ contents.roundedMantissa := by
  rw [ExtendedMantissa.roundedMantissa]
  cases contents.accuracy with
  | exact => exact Nat.le_refl _
  | inexact order => cases order <;> simp only [Accuracy.roundToNearestEven] <;> omega

/-- A mantissa keeps its leading bit when it is shifted to its place, unless the number is smaller
than the least one of the format. -/
theorem shiftToTargetExponent_bounds {m : Nat} {e : Int} (hm : 0 < m)
    (hleast : -1074 ≤ e + m.log2) (accuracy : Accuracy) :
    0 < (shiftToTargetExponent Format.binary64 m e accuracy).1.mantissa ∧
      (shiftToTargetExponent Format.binary64 m e accuracy).1.mantissa < 2 ^ 53 ∧
      -1074 ≤ (shiftToTargetExponent Format.binary64 m e accuracy).2 := by
  simp only [shiftToTargetExponent, shiftToExponent, mantissa_shiftRight,
    mantissa_ofMantissaAndAccuracy, targetExponent_binary64, totalExponent]
  generalize hn : (max ((m.log2 : Int) + 1 + e - 53) (-1074) - e).toNat = n
  have hlow : 2 ^ m.log2 ≤ m := Nat.log2_self_le (Nat.ne_of_gt hm)
  have hhigh : m < 2 ^ (m.log2 + 1) := Nat.lt_log2_self
  refine ⟨?_, ?_, by omega⟩
  · apply Nat.div_pos _ (Nat.two_pow_pos n)
    have hpow : 2 ^ n ≤ 2 ^ m.log2 := Nat.pow_le_pow_right (by decide) (by omega)
    exact Nat.le_trans hpow hlow
  · rw [Nat.div_lt_iff_lt_mul (Nat.two_pow_pos n), ← Nat.pow_add]
    have hpow : 2 ^ (m.log2 + 1) ≤ 2 ^ (53 + n) := Nat.pow_le_pow_right (by decide) (by omega)
    exact Nat.lt_of_lt_of_le hhigh hpow

/-- What is at least the least number of the format stays above zero when it is rounded. -/
theorem roundWithAccuracy_eq_finite {m : Nat} {e : Int} (hm : 0 < m)
    (hleast : -1074 ≤ e + m.log2) (accuracy : Accuracy) :
    ∃ n f, ∃ hn : 0 < n, roundWithAccuracy Format.binary64 .positive m e accuracy =
      .finite .positive n f hn ∧ n < 2 ^ 53 ∧ -1074 ≤ f := by
  obtain ⟨hfirst, -, hplace⟩ := shiftToTargetExponent_bounds hm hleast accuracy
  rcases hshift : shiftToTargetExponent Format.binary64 m e accuracy with ⟨contents, place⟩
  rw [hshift] at hfirst hplace
  -- Rounding up can take one bit more, so the mantissa is shifted again.
  have hrounded := Nat.lt_of_lt_of_le hfirst (mantissa_le_roundedMantissa contents)
  have hagain : -1074 ≤ place + contents.roundedMantissa.log2 := by omega
  obtain ⟨hsecond, hbits, hlast⟩ := shiftToTargetExponent_bounds hrounded hagain .exact
  refine ⟨_, _, hsecond, ?_, hbits, hlast⟩
  rw [roundWithAccuracy, hshift]
  exact dif_neg (Nat.ne_of_gt hsecond)

/-- What is at least the least number of the format is above zero when it is rounded and packed. -/
theorem aboveZero_roundWithAccuracy {m : Nat} {e : Int} (hm : 0 < m)
    (hleast : -1074 ≤ e + m.log2) (accuracy : Accuracy) :
    AboveZero (Float.Model.pack
      (roundWithAccuracy Format.binary64 .positive m e accuracy)).unpack := by
  obtain ⟨n, f, hn, hround, hbits, hplace⟩ := roundWithAccuracy_eq_finite hm hleast accuracy
  rw [hround]
  exact aboveZero_unpack_pack hn hbits hplace

/-- A positive mantissa at an exponent from the least one on is above zero when it is rounded. -/
theorem aboveZero_normalize {m : Int} {e : Int} (hm : 0 < m) (hleast : -1074 ≤ e) :
    AboveZero
      (Float.Model.pack (UnpackedFloat.normalize Format.binary64 m e .positive)).unpack := by
  have hcompare : compare m 0 = .gt := Int.compare_eq_gt.mpr hm
  rw [UnpackedFloat.normalize, hcompare]
  simp only [UnpackedFloat.round, decreaseExponent, targetExponent_binary64]
  apply aboveZero_roundWithAccuracy
  · rw [Nat.shiftLeft_eq]
    exact Nat.mul_pos (by omega) (Nat.two_pow_pos _)
  · omega

/-- A number that is unpacked has at most 53 bits, and no exponent below the least one. -/
theorem bounds_of_unpack {bits : BitVec Format.binary64.numBits} {s : Sign} {m : Nat} {e : Int}
    {hm : 0 < m} (hunpack : UnpackedFloat.unpack Format.binary64 bits = .finite s m e hm) :
    m < 2 ^ 53 ∧ -1074 ≤ e := by
  have hbias : Format.binary64.exponentBias = 1023 := by decide
  unfold UnpackedFloat.unpack at hunpack
  simp only [hbias] at hunpack
  split at hunpack
  · split at hunpack <;> cases hunpack
  split at hunpack
  · split at hunpack
    · cases hunpack
    · cases hunpack
      have hbits : (unpackMantissa bits).toNat < 2 ^ 52 := (unpackMantissa bits).isLt
      exact ⟨by omega, by omega⟩
  · next hnonzero =>
      cases hunpack
      have hbits : (1#1 ++ unpackMantissa bits).toNat < 2 ^ 53 := (1#1 ++ unpackMantissa bits).isLt
      have hpositive : (unpackExponent bits).toNat ≠ 0 := by
        intro hzero
        exact hnonzero (BitVec.eq_of_toNat_eq hzero)
      exact ⟨hbits, by omega⟩

theorem aboveZero_infinity : AboveZero (Float.Model.pack (.infinity .positive)).unpack :=
  trivial

/-- A sum of positive numbers is positive. -/
theorem add_pos_float {x y : Float} (hx : 0 < x) (hy : 0 < y) : 0 < x + y := by
  rw [pos_iff_aboveZero] at hx hy ⊢
  show AboveZero (Float.Model.pack
    (UnpackedFloat.add Format.binary64 x.toModel.unpack y.toModel.unpack)).unpack
  rcases hx.eq_infinity_or_finite with hfirst | ⟨m, e, hm, hfirst⟩
  · rcases hy.eq_infinity_or_finite with hsecond | ⟨n, f, hn, hsecond⟩
    · rw [hfirst, hsecond]
      exact aboveZero_infinity
    · rw [hfirst, hsecond]
      exact aboveZero_infinity
  · rcases hy.eq_infinity_or_finite with hsecond | ⟨n, f, hn, hsecond⟩
    · rw [hfirst, hsecond]
      exact aboveZero_infinity
    · have hleast := (bounds_of_unpack hfirst).2
      have hother := (bounds_of_unpack hsecond).2
      rw [hfirst, hsecond]
      apply aboveZero_normalize
      · have hshift := Nat.mul_pos hm (Nat.two_pow_pos (e - min e f).toNat)
        simp only [Sign.apply, Nat.shiftLeft_eq]
        omega
      · omega

/-- Zero and a positive number have a positive sum. -/
theorem zero_add_pos_float {x : Float} (hx : 0 < x) : 0 < 0 + x := by
  rw [pos_iff_aboveZero] at hx ⊢
  show AboveZero (Float.Model.pack
    (UnpackedFloat.add Format.binary64 (0 : Float).toModel.unpack x.toModel.unpack)).unpack
  rw [unpack_zero]
  rcases hx.eq_infinity_or_finite with hinfinite | ⟨m, e, hm, hfinite⟩
  · rw [hinfinite]
    exact aboveZero_infinity
  · rw [hfinite]
    exact aboveZero_unpack_pack hm (bounds_of_unpack hfinite).1 (bounds_of_unpack hfinite).2

theorem unpack_one :
    (Float.ofBits 0x3FF0000000000000).toModel.unpack =
      .finite .positive (2 ^ 52) (-52) (by decide) :=
  rfl

/-- A product with one is positive when the other factor is. -/
theorem mul_one_pos_float {x : Float} (hx : 0 < x) : 0 < x * Float.ofBits 0x3FF0000000000000 := by
  rw [pos_iff_aboveZero] at hx ⊢
  show AboveZero (Float.Model.pack (UnpackedFloat.mul Format.binary64 x.toModel.unpack
    (Float.ofBits 0x3FF0000000000000).toModel.unpack)).unpack
  rw [unpack_one]
  rcases hx.eq_infinity_or_finite with hinfinite | ⟨m, e, hm, hfinite⟩
  · rw [hinfinite]
    exact aboveZero_infinity
  · have hleast := (bounds_of_unpack hfinite).2
    have hproduct : 0 < m * 2 ^ 52 := Nat.mul_pos hm (by decide)
    have hlog : 52 ≤ (m * 2 ^ 52).log2 :=
      (Nat.le_log2 (Nat.ne_of_gt hproduct)).mpr (Nat.le_mul_of_pos_left _ hm)
    rw [hfinite]
    exact aboveZero_roundWithAccuracy hproduct (by omega) .exact

/-- A positive natural number is positive as a floating-point number. -/
theorem ofNat_pos_float {n : Nat} (hn : 0 < n) : 0 < Float.ofNat n := by
  show 0 < Float.ofScientific n false 0
  unfold Float.ofScientific
  split
  · next hsmall =>
      apply mul_one_pos_float
      rw [pos_iff_aboveZero]
      show AboveZero (Float.Model.pack
        (UnpackedFloat.normalize Format.binary64 (n.toUInt64.toNat : Int) 0 .positive)).unpack
      have hsize : n < UInt64.size := Nat.lt_trans hsmall.1 (by decide)
      rw [UInt64.toNat_ofNat_of_lt' hsize]
      exact aboveZero_normalize (by omega) (by decide)
  · rw [pos_iff_aboveZero]
    show AboveZero (Float.Model.pack (UnpackedFloat.ofScientific Format.binary64 n 0)).unpack
    have hlog : ¬ (0 : Int) < -((2 ^ Format.binary64.exponentBits : Int) + n.log2) := by
      have hpower : (2 : Int) ^ Format.binary64.exponentBits = 2048 := by decide
      omega
    have hbits : Format.binary64.mantissaBits = 53 := by decide
    have hmantissa : 0 < n <<< 53 * 10 ^ (0 : Int).toNat := by
      rw [Nat.shiftLeft_eq]
      exact Nat.mul_pos (Nat.mul_pos hn (Nat.two_pow_pos 53)) (by decide)
    have hleast : (-1074 : Int) ≤ -53 + 0 + (n <<< 53 * 10 ^ (0 : Int).toNat).log2 := by omega
    unfold UnpackedFloat.ofScientific
    rw [dif_neg (Nat.ne_of_gt hn), if_neg (by decide), if_neg hlog, if_pos (by decide)]
    simp only [hbits]
    rw [UnpackedFloat.mul]
    exact aboveZero_roundWithAccuracy hmantissa hleast .exact

/-- A positive integer is positive as a floating-point number. -/
theorem ofInt_pos_float {n : Int} (hn : 0 < n) : 0 < Float.ofInt n := by
  cases n with
  | ofNat n => exact ofNat_pos_float (Int.natCast_pos.mp hn)
  | negSucc n => omega

/-- What a division of time relies on: positive counts and sums of positive weights are positive,
and nothing positive is zero. -/
class LawfulMeasure (α : Type) [Measure α] [LT α] [OfNat α 0] : Prop where
  ofInt_pos : ∀ {n : Int}, 0 < n → (0 : α) < Measure.ofInt n
  add_pos : ∀ {x y : α}, 0 < x → 0 < y → 0 < x + y
  zero_add_pos : ∀ {x : α}, 0 < x → 0 < Measure.ofInt 0 + x
  isZero_eq_false : ∀ {x : α}, 0 < x → Measure.isZero x = false

instance : LawfulMeasure Float where
  ofInt_pos := ofInt_pos_float
  add_pos := add_pos_float
  zero_add_pos := zero_add_pos_float
  isZero_eq_false := beq_zero_eq_false

instance : LawfulMeasure Rat where
  ofInt_pos hn := Rat.intCast_pos.mpr hn
  add_pos {x y} hx hy := by
    have hsum : x + 0 < x + y := Rat.add_lt_add_left.mpr hy
    rw [Rat.add_zero] at hsum
    exact Std.lt_trans hx hsum
  zero_add_pos {x} hx := by
    show 0 < 0 + x
    rwa [Rat.zero_add]
  isZero_eq_false hx := by simpa [Measure.isZero] using Rat.ne_of_gt hx

end CyclePattern
