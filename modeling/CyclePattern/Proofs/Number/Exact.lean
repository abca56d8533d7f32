/-
# Exact values of floating-point numbers

A finite floating-point number is a rational number, and the order of floating-point numbers is the
order of these rationals. So a tree whose numbers are finite can be played with exact numbers, and
numbers that were in range stay in range.

Among numbers of one sign the larger one has the larger exponent, or the larger mantissa at the same
exponent. That holds because every mantissa has its full 53 bits, unless the exponent is the least
one.
-/

import CyclePattern.Proofs.Number.Positive

namespace CyclePattern

open Float.Model Float.Model.UnpackedFloat

/-- The rational number with these contents, or zero where there is none. -/
def contentsValue : UnpackedFloat → Rat
  | .finite s m e _ => s.apply m * 2 ^ e
  | _ => 0

/-- The rational number that a finite floating-point number is. -/
def exactValue (x : Float) : Rat :=
  contentsValue x.toModel.unpack

theorem exactValue_zero : exactValue 0 = 0 :=
  rfl

theorem exactValue_ofBits_one : exactValue (Float.ofBits 0x3FF0000000000000) = 1 := by
  rw [exactValue, unpack_one]
  norm_num [contentsValue, Sign.apply]

@[simp]
theorem exactValue_one : exactValue 1 = 1 :=
  exactValue_ofBits_one

/-- A mantissa with its exponent as they are unpacked. -/
structure Canonical (m : Nat) (e : Int) : Prop where
  bits : m < 2 ^ 53
  leading : e = -1074 ∨ 2 ^ 52 ≤ m
  least : -1074 ≤ e

theorem canonical_of_unpack {bits : BitVec Format.binary64.numBits} {s : Sign} {m : Nat} {e : Int}
    {hm : 0 < m} (hunpack : UnpackedFloat.unpack Format.binary64 bits = .finite s m e hm) :
    Canonical m e := by
  obtain ⟨hbits, hleast⟩ := bounds_of_unpack hunpack
  refine ⟨hbits, ?_, hleast⟩
  have hbias : Format.binary64.exponentBias = 1023 := by decide
  unfold UnpackedFloat.unpack at hunpack
  simp only [hbias] at hunpack
  split at hunpack
  · split at hunpack <;> cases hunpack
  split at hunpack
  · next hzero =>
      split at hunpack
      · cases hunpack
      · cases hunpack
        rw [hzero]
        left
        rfl
  · cases hunpack
    right
    rw [BitVec.toNat_append]
    exact Nat.left_le_or

/-- The larger exponent belongs to the larger number. -/
theorem scaled_lt_of_exponent_lt {m n : Nat} {e f : Int} (hm : Canonical m e) (hn : Canonical n f)
    (hlt : e < f) : (m : Rat) * 2 ^ e < n * 2 ^ f := by
  have hleast := hm.least
  have hlow : 2 ^ 52 ≤ n := hn.leading.resolve_left (by omega)
  have hfirst : (m : Rat) < 2 ^ 53 := by exact_mod_cast hm.bits
  have hsecond : (2 : Rat) ^ 52 ≤ n := by exact_mod_cast hlow
  have hpow : (2 : Rat) ^ (e + 1) ≤ 2 ^ f := zpow_le_zpow_right₀ (by norm_num) (by omega)
  calc (m : Rat) * 2 ^ e
      < 2 ^ 53 * 2 ^ e := by gcongr
    _ = 2 ^ 52 * 2 ^ (e + 1) := by rw [zpow_add_one₀ (by norm_num)]; ring
    _ ≤ n * 2 ^ f := by gcongr

theorem compare_neg_neg (x y : Rat) : compare (-x) (-y) = (compare x y).swap := by
  rcases lt_trichotomy x y with hlt | rfl | hgt
  · rw [compare_lt_iff_lt.mpr hlt, compare_gt_iff_gt.mpr (neg_lt_neg hlt), Ordering.swap_lt]
  · rw [compare_eq_iff_eq.mpr rfl, compare_eq_iff_eq.mpr rfl, Ordering.swap_eq]
  · rw [compare_gt_iff_gt.mpr hgt, compare_lt_iff_lt.mpr (neg_lt_neg hgt), Ordering.swap_gt]

theorem compare_scaled {m n : Nat} {e f : Int} (hm : Canonical m e) (hn : Canonical n f) :
    (compare e f).then (compare m n) = compare ((m : Rat) * 2 ^ e) (n * 2 ^ f) := by
  rcases lt_trichotomy e f with hlt | rfl | hgt
  · rw [compare_lt_iff_lt.mpr hlt, compare_lt_iff_lt.mpr (scaled_lt_of_exponent_lt hm hn hlt)]
    rfl
  · have hpow : (0 : Rat) < 2 ^ e := zpow_pos (by norm_num) e
    have hmono : StrictMono fun k : Nat => (k : Rat) * 2 ^ e := by
      intro i j hij
      have hcast : (i : Rat) < j := by exact_mod_cast hij
      exact mul_lt_mul_of_pos_right hcast hpow
    rw [compare_eq_iff_eq.mpr rfl, Ordering.eq_then, ← cmp_eq_compare, ← cmp_eq_compare,
      hmono.cmp_map_eq]
  · rw [compare_gt_iff_gt.mpr hgt, compare_gt_iff_gt.mpr (scaled_lt_of_exponent_lt hn hm hgt)]
    rfl

/-- Whether the contents are a finite number as it is unpacked. -/
def IsCanonical : UnpackedFloat → Prop
  | .finite _ m e _ => Canonical m e
  | .zero _ => True
  | _ => False

theorem isCanonical_unpack {x : Float} (hx : x.isFinite = true) : IsCanonical x.toModel.unpack := by
  change x.toModel.unpack.isFinite = true at hx
  cases hcontents : x.toModel.unpack with
  | finite s m e hm => exact canonical_of_unpack hcontents
  | zero s => trivial
  | infinity s =>
      rw [hcontents] at hx
      cases hx
  | notANumber =>
      rw [hcontents] at hx
      cases hx

theorem scaled_pos {m : Nat} (hm : 0 < m) (e : Int) : (0 : Rat) < m * 2 ^ e :=
  mul_pos (Nat.cast_pos.mpr hm) (zpow_pos (by norm_num) e)

theorem contentsValue_positive {m : Nat} {e : Int} (hm : 0 < m) :
    contentsValue (.finite .positive m e hm) = m * 2 ^ e := by
  simp [contentsValue, Sign.apply]

theorem contentsValue_negative {m : Nat} {e : Int} (hm : 0 < m) :
    contentsValue (.finite .negative m e hm) = -(m * 2 ^ e) := by
  simp [contentsValue, Sign.apply]

/-- Contents compare as the numbers that they stand for. -/
theorem compare_contents {a b : UnpackedFloat} (ha : IsCanonical a) (hb : IsCanonical b) :
    a.compare b = some (compare (contentsValue a) (contentsValue b)) := by
  cases a with
  | infinity s => cases ha
  | notANumber => cases ha
  | zero s =>
      cases b with
      | infinity t => cases hb
      | notANumber => cases hb
      | zero t => exact congrArg some (compare_eq_iff_eq.mpr rfl).symm
      | finite t n f hn =>
          have hpos := scaled_pos hn f
          cases t with
          | positive =>
              rw [contentsValue_positive]
              exact congrArg some (compare_lt_iff_lt.mpr hpos).symm
          | negative =>
              rw [contentsValue_negative]
              exact congrArg some (compare_gt_iff_gt.mpr (neg_neg_of_pos hpos)).symm
  | finite s m e hm =>
      have hfirst := scaled_pos hm e
      cases b with
      | infinity t => cases hb
      | notANumber => cases hb
      | zero t =>
          cases s with
          | positive =>
              rw [contentsValue_positive]
              exact congrArg some (compare_gt_iff_gt.mpr hfirst).symm
          | negative =>
              rw [contentsValue_negative]
              exact congrArg some (compare_lt_iff_lt.mpr (neg_neg_of_pos hfirst)).symm
      | finite t n f hn =>
          have hsecond := scaled_pos hn f
          cases s with
          | positive =>
              cases t with
              | positive =>
                  rw [contentsValue_positive, contentsValue_positive]
                  exact congrArg some (compare_scaled ha hb)
              | negative =>
                  rw [contentsValue_positive, contentsValue_negative]
                  exact congrArg some (compare_gt_iff_gt.mpr (by linarith)).symm
          | negative =>
              cases t with
              | positive =>
                  rw [contentsValue_negative, contentsValue_positive]
                  exact congrArg some (compare_lt_iff_lt.mpr (by linarith)).symm
              | negative =>
                  rw [contentsValue_negative, contentsValue_negative, compare_neg_neg,
                    ← compare_scaled ha hb]
                  rfl

/-- Finite numbers are ordered as their exact values. -/
theorem exactValue_lt_iff {x y : Float} (hx : x.isFinite = true) (hy : y.isFinite = true) :
    exactValue x < exactValue y ↔ x < y := by
  show _ ↔ decide (UnpackedFloat.lt x.toModel.unpack y.toModel.unpack = true) = true
  rw [decide_eq_true_iff, UnpackedFloat.lt,
    compare_contents (isCanonical_unpack hx) (isCanonical_unpack hy), beq_iff_eq, Option.some.injEq,
    compare_lt_iff_lt]
  rfl

theorem exactValue_le_iff {x y : Float} (hx : x.isFinite = true) (hy : y.isFinite = true) :
    exactValue x ≤ exactValue y ↔ x ≤ y := by
  show _ ↔ decide (UnpackedFloat.le x.toModel.unpack y.toModel.unpack = true) = true
  rw [decide_eq_true_iff, UnpackedFloat.le,
    compare_contents (isCanonical_unpack hx) (isCanonical_unpack hy), Option.any_some,
    ← Ordering.ne_gt_iff_isLE]
  exact compare_le_iff_le.symm

end CyclePattern
