import Mathlib
import PseudoBoolean.Binary64

/-!
# The sign of the nearest double

The double nearest to a rational number has the sign of the number, unless the number is at most half of
the least positive double, which makes it zero (`unpack_ofRat`). The quotient is computed with a mantissa
of at least 53 digits and rounded to 53 digits (`isRounded_roundWithAccuracy`), or with the least exponent
and as many digits as are left (`isRounded_roundWithAccuracy_min`). What comes out survives the packing,
if the exponent is not too large, and else becomes an infinity of the same sign
(`isRounded_unpack_pack`). So the double compares with zero as the number does that is `kept` of the
number (`compare_ofRat_zero`).
-/

namespace PseudoBoolean.Binary64

open Float.Model
open UnpackedFloat (Sign Accuracy ExtendedMantissa)

/-- A value of the given sign as rounding leaves it: infinite, or with a mantissa of full length, or with
a shorter one and the least exponent. -/
def IsRounded (sign : Sign) : UnpackedFloat → Prop
  | .infinity s => s = sign
  | .finite s m e _ => s = sign ∧ -1074 ≤ e ∧ (m.log2 = 52 ∨ m.log2 < 52 ∧ e = -1074)
  | _ => False

/-- Infinite, or with a mantissa of full length and an exponent that is not below a bound. -/
def IsLong (k : ℤ) (sign : Sign) : UnpackedFloat → Prop
  | .infinity s => s = sign
  | .finite s m e _ => s = sign ∧ k ≤ e ∧ m.log2 = 52
  | _ => False

variable {sign : Sign} {m : ℕ} {e k : ℤ} {u : UnpackedFloat}

/-- The bound on the exponent can be lowered. -/
theorem IsLong.mono {l : ℤ} (h : IsLong k sign u) (hl : l ≤ k) : IsLong l sign u := by
  cases u with
  | finite s m e hm => exact ⟨h.1, hl.trans h.2.1, h.2.2⟩
  | _ => exact h

/-- A long value with an exponent that is large enough is rounded. -/
theorem IsLong.isRounded (h : IsLong k sign u) (hk : -1074 ≤ k) : IsRounded sign u := by
  cases u with
  | finite s m e hm => exact ⟨h.1, hk.trans h.2.1, .inl h.2.2⟩
  | _ => exact h

/-! ## Rounding -/

/-- A shift to the right divides the mantissa by a power of two. -/
theorem mantissa_shiftRight (em : ExtendedMantissa) (k : ℕ) :
    (em >>> k).mantissa = em.mantissa / 2 ^ k := by
  induction k with
  | zero => exact (Nat.div_one _).symm
  | succ k ih =>
    have hstep : (em >>> (k + 1)).mantissa = (em >>> k).mantissa / 2 := rfl
    rw [hstep, ih, Nat.div_div_eq_div_mul, pow_succ]

/-- Rounding does not lower a mantissa. -/
theorem le_roundToNearestEven (m : ℕ) : ∀ accuracy, m ≤ Accuracy.roundToNearestEven m accuracy
  | .exact => le_rfl
  | .inexact .lt => le_rfl
  | .inexact .eq => Nat.le_add_right _ _
  | .inexact .gt => Nat.le_succ _

/-- What is left of a long mantissa has 53 digits. -/
theorem log2_div_two_pow (h : 52 ≤ m.log2) : (m / 2 ^ (m.log2 - 52)).log2 = 52 := by
  have hm : m ≠ 0 := by
    rintro rfl
    simp at h
  obtain ⟨hle, hlt⟩ := (Nat.log2_eq_iff hm).mp rfl
  have hpos : 0 < 2 ^ (m.log2 - 52) := Nat.two_pow_pos _
  have hlow : 2 ^ 52 ≤ m / 2 ^ (m.log2 - 52) := by
    rw [Nat.le_div_iff_mul_le hpos, ← pow_add, Nat.add_sub_cancel' h]
    exact hle
  have hhigh : m / 2 ^ (m.log2 - 52) < 2 ^ (52 + 1) := by
    rw [Nat.div_lt_iff_lt_mul hpos, ← pow_add]
    rwa [show 52 + 1 + (m.log2 - 52) = m.log2 + 1 by omega]
  exact (Nat.log2_eq_iff (by omega)).mpr ⟨hlow, hhigh⟩

/-- A long mantissa is cut to 53 digits. -/
theorem shiftToTargetExponent_spec (accuracy : Accuracy) (hm : 52 ≤ m.log2)
    (he : -1074 ≤ m.log2 + e - 52) :
    (UnpackedFloat.shiftToTargetExponent .binary64 m e accuracy).1.mantissa =
        m / 2 ^ (m.log2 - 52) ∧
      (UnpackedFloat.shiftToTargetExponent .binary64 m e accuracy).2 = m.log2 + e - 52 := by
  have htarget : Format.binary64.targetExponent (totalExponent m e) = m.log2 + e - 52 := by
    simp only [Format.targetExponent, totalExponent, Format.mantissaBits, Format.minExponent]
    norm_num
    omega
  have hshift : (m.log2 + e - 52 - e).toNat = m.log2 - 52 := by omega
  have hmantissa : (ExtendedMantissa.ofMantissaAndAccuracy m accuracy).mantissa = m := by
    unfold ExtendedMantissa.ofMantissaAndAccuracy
    split <;> rfl
  simp only [UnpackedFloat.shiftToTargetExponent, htarget, UnpackedFloat.shiftToExponent, hshift,
    mantissa_shiftRight, hmantissa]
  exact ⟨trivial, by omega⟩

/-- The end of rounding. Rounding up can lead to one more digit, so the mantissa is cut once more. -/
def cutAgain (sign : Sign) (m : ℕ) (e : ℤ) : UnpackedFloat :=
  let (em, e') := UnpackedFloat.shiftToTargetExponent .binary64 m e .exact
  if h : em.mantissa = 0 then .zero sign else .finite sign em.mantissa e' (Nat.pos_of_ne_zero h)

/-- Rounding shifts to the target exponent, rounds the mantissa and cuts once more. -/
theorem roundWithAccuracy_eq (sign : Sign) (m : ℕ) (e : ℤ) (accuracy : Accuracy) :
    UnpackedFloat.roundWithAccuracy .binary64 sign m e accuracy =
      cutAgain sign (UnpackedFloat.shiftToTargetExponent .binary64 m e accuracy).1.roundedMantissa
        (UnpackedFloat.shiftToTargetExponent .binary64 m e accuracy).2 := rfl

/-- What is cut from a mantissa with 53 digits or more is long. -/
theorem isLong_cutAgain (sign : Sign) (hm : 52 ≤ m.log2) (he : -1074 ≤ m.log2 + e - 52) :
    IsLong (m.log2 + e - 52) sign (cutAgain sign m e) := by
  obtain ⟨hmantissa, hexponent⟩ := shiftToTargetExponent_spec .exact hm he
  have hlog := log2_div_two_pow hm
  rw [← hmantissa] at hlog
  rw [cutAgain]
  dsimp only
  rw [dif_neg fun h0 => by rw [h0] at hlog; simp at hlog]
  exact ⟨rfl, hexponent.ge, hlog⟩

/-- It is rounded if the exponent is large enough. -/
theorem isRounded_cutAgain (sign : Sign) (hm : 52 ≤ m.log2) (he : -1074 ≤ m.log2 + e - 52) :
    IsRounded sign (cutAgain sign m e) :=
  (isLong_cutAgain sign hm he).isRounded he

/-- Rounding keeps the sign and does not lower the exponent, and a mantissa of full length comes out. -/
theorem isLong_roundWithAccuracy (sign : Sign) (accuracy : Accuracy) (hm : 52 ≤ m.log2)
    (he : -1074 ≤ m.log2 + e - 52) :
    IsLong (m.log2 + e - 52) sign (UnpackedFloat.roundWithAccuracy .binary64 sign m e accuracy) := by
  obtain ⟨hmantissa, hexponent⟩ := shiftToTargetExponent_spec accuracy hm he
  have hlog := log2_div_two_pow hm
  rw [roundWithAccuracy_eq]
  generalize UnpackedFloat.shiftToTargetExponent .binary64 m e accuracy = first at *
  obtain ⟨em, e₁⟩ := first
  dsimp only at hmantissa hexponent ⊢
  have hrounded : 52 ≤ em.roundedMantissa.log2 := by
    have hle : em.mantissa ≤ em.roundedMantissa := le_roundToNearestEven _ _
    rw [← hmantissa] at hlog
    have hne : em.mantissa ≠ 0 := fun h0 => by
      rw [h0] at hlog
      simp at hlog
    have hpow := (Nat.log2_eq_iff hne).mp hlog
    exact (Nat.le_log2 (by omega)).mpr (hpow.1.trans hle)
  exact (isLong_cutAgain sign hrounded (by omega)).mono (by omega)

/-- A mantissa with 53 digits or more is rounded to a value other than zero. -/
theorem isRounded_roundWithAccuracy (sign : Sign) (accuracy : Accuracy) (hm : 52 ≤ m.log2)
    (he : -1074 ≤ m.log2 + e - 52) :
    IsRounded sign (UnpackedFloat.roundWithAccuracy .binary64 sign m e accuracy) :=
  (isLong_roundWithAccuracy sign accuracy hm he).isRounded he

/-! ## Rounding with the least exponent -/

/-- Rounding raises a mantissa by one at most. -/
theorem roundToNearestEven_le (m : ℕ) : ∀ accuracy, Accuracy.roundToNearestEven m accuracy ≤ m + 1
  | .exact => Nat.le_succ m
  | .inexact .lt => Nat.le_succ m
  | .inexact .eq => by
    have := Nat.mod_lt m two_pos
    simp only [Accuracy.roundToNearestEven]
    omega
  | .inexact .gt => le_rfl

/-- A mantissa below `2 ^ 53` has at most 53 digits. -/
theorem log2_le_of_lt (hm : m < 2 ^ 53) : m.log2 ≤ 52 := by
  by_cases h0 : m = 0
  · simp [h0]
  · exact Nat.lt_succ_iff.mp ((Nat.log2_lt h0).mpr hm)

/-- With the least exponent nothing is cut from a mantissa of at most 53 digits. -/
theorem shiftToTargetExponent_min (accuracy : Accuracy) (hm : m < 2 ^ 53) :
    UnpackedFloat.shiftToTargetExponent .binary64 m (-1074) accuracy =
      (ExtendedMantissa.ofMantissaAndAccuracy m accuracy, -1074) := by
  have hlog := log2_le_of_lt hm
  have htarget : Format.binary64.targetExponent (totalExponent m (-1074)) = -1074 := by
    simp only [Format.targetExponent, totalExponent, Format.mantissaBits, Format.minExponent]
    norm_num
    omega
  rw [UnpackedFloat.shiftToTargetExponent, htarget]
  rfl

/-- With the least exponent a mantissa of at most 53 digits is not cut. -/
theorem cutAgain_min (sign : Sign) (hm : m < 2 ^ 53) :
    cutAgain sign m (-1074) =
      if h : m = 0 then .zero sign else .finite sign m (-1074) (Nat.pos_of_ne_zero h) := by
  rw [cutAgain, shiftToTargetExponent_min .exact hm]
  rfl

/-- With the least exponent the rounded mantissa decides: zero makes a zero, and any other is kept. -/
theorem roundWithAccuracy_min (sign : Sign) (accuracy : Accuracy) (hm : m < 2 ^ 53) :
    (accuracy.roundToNearestEven m = 0 →
      UnpackedFloat.roundWithAccuracy .binary64 sign m (-1074) accuracy = .zero sign) ∧
    (accuracy.roundToNearestEven m ≠ 0 →
      IsRounded sign (UnpackedFloat.roundWithAccuracy .binary64 sign m (-1074) accuracy)) := by
  have hrounded : (ExtendedMantissa.ofMantissaAndAccuracy m accuracy).roundedMantissa =
      accuracy.roundToNearestEven m := by
    cases accuracy with
    | exact => rfl
    | inexact half => cases half <;> rfl
  have hle := roundToNearestEven_le m accuracy
  rw [roundWithAccuracy_eq, shiftToTargetExponent_min accuracy hm, hrounded]
  generalize accuracy.roundToNearestEven m = r at hle ⊢
  dsimp only
  by_cases hlarge : r = 2 ^ 53
  · subst hlarge
    refine ⟨fun h => absurd h (by decide), fun _ => ?_⟩
    exact isRounded_cutAgain sign (by rw [Nat.log2_two_pow]; omega) (by rw [Nat.log2_two_pow]; omega)
  · have hr : r < 2 ^ 53 := by omega
    rw [cutAgain_min sign hr]
    refine ⟨fun h => dif_pos h, fun h => ?_⟩
    rw [dif_neg h]
    exact ⟨rfl, le_rfl, (log2_le_of_lt hr).eq_or_lt.imp_right fun h => ⟨h, rfl⟩⟩

/-! ## Packing -/

/-- An infinity survives packing. -/
theorem unpack_packedInfinity (sign : Sign) :
    UnpackedFloat.unpack .binary64 (UnpackedFloat.packedInfinity .binary64 sign) =
      .infinity sign := by
  simp only [UnpackedFloat.unpack, UnpackedFloat.packedInfinity,
    UnpackedFloat.unpackExponent_packComponents, UnpackedFloat.unpackMantissa_packComponents,
    UnpackedFloat.unpackSign_packComponents, Sign.ofBitVec_toBitVec]
  rfl

/-- A mantissa with a leading one in front has full length. -/
theorem log2_one_append (mantissa : BitVec 52) : (1#1 ++ mantissa).toNat.log2 = 52 := by
  have hlt := mantissa.isLt
  have hvalue : (1#1 ++ mantissa).toNat = 2 ^ 52 + mantissa.toNat := by
    rw [BitVec.toNat_append, ← Nat.shiftLeft_add_eq_or_of_lt hlt]
    rfl
  rw [hvalue]
  exact (Nat.log2_eq_iff (by omega)).mpr ⟨by omega, by omega⟩

/-- With a biased exponent that is neither the first nor the last, a leading one is put in front. -/
theorem isLong_packComponents {biased : ℕ} (mantissa : BitVec 52) (hfirst : 1 ≤ biased)
    (hlast : biased + 1 < 2 ^ 11) :
    IsLong (biased - 1075) sign (UnpackedFloat.unpack .binary64
      (UnpackedFloat.packComponents .binary64 sign (BitVec.ofNat 11 biased) mantissa)) := by
  have hbiased : (BitVec.ofNat 11 biased).toNat = biased := by
    rw [BitVec.toNat_ofNat, Nat.mod_eq_of_lt (by omega)]
  have h0 : BitVec.ofNat 11 biased ≠ 0#11 := fun h => by
    rw [h] at hbiased
    simp at hbiased
    omega
  have h1 : BitVec.ofNat 11 biased ≠ -1#11 := fun h => by
    rw [h] at hbiased
    simp at hbiased
    omega
  simp only [UnpackedFloat.unpack, UnpackedFloat.unpackExponent_packComponents,
    UnpackedFloat.unpackMantissa_packComponents, UnpackedFloat.unpackSign_packComponents,
    Sign.ofBitVec_toBitVec]
  rw [if_neg h1, if_neg h0, hbiased]
  refine ⟨rfl, ?_, log2_one_append mantissa⟩
  simp only [Format.exponentBias]
  omega

/-- With the first biased exponent the mantissa stands as it is. -/
theorem isRounded_packComponents_zero (hpos : 0 < m) (hm : m.log2 < 52) :
    IsRounded sign (UnpackedFloat.unpack .binary64
      (UnpackedFloat.packComponents .binary64 sign 0#11 (BitVec.ofNat 52 m))) := by
  have hvalue : (BitVec.ofNat 52 m).toNat = m := by
    rw [BitVec.toNat_ofNat, Nat.mod_eq_of_lt ((Nat.log2_lt hpos.ne').mp hm)]
  have hne : BitVec.ofNat 52 m ≠ 0#52 := fun h => by
    rw [h] at hvalue
    simp at hvalue
    omega
  simp only [UnpackedFloat.unpack, UnpackedFloat.unpackExponent_packComponents,
    UnpackedFloat.unpackMantissa_packComponents, UnpackedFloat.unpackSign_packComponents,
    Sign.ofBitVec_toBitVec]
  rw [if_neg (by decide), if_pos trivial, dif_neg hne]
  simp only [hvalue]
  exact ⟨rfl, by decide, .inr ⟨hm, by decide⟩⟩

/-- A value whose exponent is too large is packed as an infinity. The leading one of a mantissa of full
length is left out. -/
theorem pack_finite (sign : Sign) (m : ℕ) (e : ℤ) (hm : 0 < m) :
    UnpackedFloat.pack .binary64 (.finite sign m e hm) =
      if 2 ^ 11 ≤ (e + 1075).toNat + 1 then UnpackedFloat.packedInfinity .binary64 sign
      else if m.log2 = 52 then
        UnpackedFloat.packComponents .binary64 sign (BitVec.ofNat 11 (e + 1075).toNat) (BitVec.ofNat 52 m)
      else UnpackedFloat.packComponents .binary64 sign 0#11 (BitVec.ofNat 52 m) := by
  have hbiased : e + (Format.binary64.exponentBias : ℤ) + (52 : ℕ) = e + 1075 := by
    simp only [Format.exponentBias]
    omega
  rw [UnpackedFloat.pack, ← hbiased]
  simp only [Format.mantissaBits, Nat.add_comm 1, Nat.add_right_cancel_iff]

/-- A long value stays long when it is packed. -/
theorem isLong_unpack_pack (h : IsLong k sign u) (hk : -1074 ≤ k) :
    IsLong k sign (UnpackedFloat.unpack .binary64 (UnpackedFloat.pack .binary64 u)) := by
  cases u with
  | notANumber => exact h.elim
  | zero s => exact h.elim
  | infinity s =>
    rw [UnpackedFloat.pack, unpack_packedInfinity]
    exact h
  | finite s m e hm =>
    obtain ⟨rfl, he, hlog⟩ := h
    rw [pack_finite]
    by_cases hover : 2 ^ 11 ≤ (e + 1075).toNat + 1
    · rw [if_pos hover, unpack_packedInfinity]
      rfl
    · rw [if_neg hover, if_pos hlog]
      exact (isLong_packComponents _ (by omega) (by omega)).mono (by omega)

/-- A rounded value stays rounded when it is packed. -/
theorem isRounded_unpack_pack (h : IsRounded sign u) :
    IsRounded sign (UnpackedFloat.unpack .binary64 (UnpackedFloat.pack .binary64 u)) := by
  cases u with
  | notANumber => exact h.elim
  | zero s => exact h.elim
  | infinity s => exact (isLong_unpack_pack (u := .infinity s) (k := -1074) h le_rfl).isRounded le_rfl
  | finite s m e hm =>
    obtain ⟨rfl, he, hlog | ⟨hlog, rfl⟩⟩ := h
    · exact (isLong_unpack_pack (u := .finite s m e hm) ⟨rfl, he, hlog⟩ le_rfl).isRounded le_rfl
    · rw [pack_finite, if_neg (by decide), if_neg hlog.ne]
      exact isRounded_packComponents_zero hm hlog

/-! ## The nearest double -/

/-- The double for a value is the value packed. -/
theorem unpack_ofBits (u : UnpackedFloat) :
    (Float.ofBits (Float.Model.pack u).toBits).toModel.unpack =
      UnpackedFloat.unpack .binary64 (UnpackedFloat.pack .binary64 u) :=
  congrArg (UnpackedFloat.unpack .binary64)
    (UnpackedFloat.pack_unpack_of_valid (Float.Model.pack u).valid)

/-- The sign of a rational number, where zero counts as positive. -/
def signOf (q : ℚ) : Sign :=
  if q < 0 then .negative else .positive

/-- The nearest double of zero is zero. -/
theorem unpack_ofRat_zero : (ofRat 0).toModel.unpack = .zero .positive := by
  have hquotient : UnpackedFloat.div .binary64 (unpackedWhole .positive 0) (unpackedWhole .positive 1) =
      .zero .positive := rfl
  rw [ofRat]
  simp only [lt_irrefl, if_false, Rat.num_ofNat, Int.natAbs_zero, Rat.den_ofNat]
  rw [unpack_ofBits, hquotient, UnpackedFloat.pack, UnpackedFloat.unpack_packedZero]

/-- The first number is shifted so far that the quotient has at least 53 digits. -/
theorem divCore_spec {m₁ m₂ : ℕ} (h₁ : 0 < m₁) (h₂ : 0 < m₂) (hlarge : m₂.log2 ≤ m₁.log2 + 1021) :
    52 ≤ (UnpackedFloat.divCore .binary64 m₁ 0 m₂ 0).1.log2 ∧
      -1074 ≤ (UnpackedFloat.divCore .binary64 m₁ 0 m₂ 0).1.log2 +
        (UnpackedFloat.divCore .binary64 m₁ 0 m₂ 0).2.1 - 52 := by
  have htarget : Format.binary64.targetExponent (totalExponent m₁ 0 - totalExponent m₂ 0) =
      (m₁.log2 : ℤ) - m₂.log2 - 53 := by
    simp only [Format.targetExponent, totalExponent, Format.mantissaBits, Format.minExponent]
    norm_num
    omega
  -- the shift makes up for what the second number is longer than the first, and 53 digits more
  have hquotient : ∀ shift : ℕ, m₂.log2 + 53 ≤ m₁.log2 + shift →
      m₁.log2 + shift - m₂.log2 - 1 ≤ (m₁ <<< shift / m₂).log2 := fun shift hshift => by
    have hlow : 2 ^ (m₁.log2 + shift) ≤ m₁ <<< shift := by
      rw [Nat.shiftLeft_eq, pow_add]
      exact Nat.mul_le_mul_right _ ((Nat.log2_eq_iff h₁.ne').mp rfl).1
    have hhigh : m₂ ≤ 2 ^ (m₂.log2 + 1) := ((Nat.log2_eq_iff h₂.ne').mp rfl).2.le
    have hpow : 2 ^ (m₁.log2 + shift - m₂.log2 - 1) ≤ m₁ <<< shift / m₂ := by
      rw [Nat.le_div_iff_mul_le h₂]
      refine (Nat.mul_le_mul_left _ hhigh).trans ?_
      rw [← pow_add]
      rwa [show m₁.log2 + shift - m₂.log2 - 1 + (m₂.log2 + 1) = m₁.log2 + shift by omega]
    have hpos := Nat.two_pow_pos (m₁.log2 + shift - m₂.log2 - 1)
    exact (Nat.le_log2 (by omega)).mpr hpow
  simp only [UnpackedFloat.divCore, sub_zero, htarget]
  have hlog := hquotient (0 - min 0 ((m₁.log2 : ℤ) - m₂.log2 - 53)).toNat (by omega)
  omega

/-- A quotient that is too small for 53 digits is computed with the least exponent. -/
theorem divCore_min {m₁ m₂ : ℕ} (hsmall : m₁.log2 + 1021 < m₂.log2) :
    UnpackedFloat.divCore .binary64 m₁ 0 m₂ 0 =
      (m₁ * 2 ^ 1074 / m₂, -1074, UnpackedFloat.accuracyOfFraction (m₁ * 2 ^ 1074 % m₂) m₂) := by
  have htarget : min 0 (Format.binary64.targetExponent (totalExponent m₁ 0 - totalExponent m₂ 0)) =
      -1074 := by
    simp only [Format.targetExponent, totalExponent, Format.mantissaBits, Format.minExponent]
    norm_num
    omega
  have hshift : (0 - (-1074 : ℤ)).toNat = 1074 := rfl
  rw [UnpackedFloat.divCore]
  simp only [sub_self, htarget, hshift]
  rw [Nat.shiftLeft_eq]

/-- The quotient is rounded to zero up to one half. -/
theorem roundToNearestEven_eq_zero_iff {m₁ m₂ : ℕ} (h₂ : 0 < m₂) :
    (UnpackedFloat.accuracyOfFraction (m₁ % m₂) m₂).roundToNearestEven (m₁ / m₂) = 0 ↔
      2 * m₁ ≤ m₂ := by
  by_cases hlt : m₁ < m₂
  · rw [Nat.div_eq_of_lt hlt, Nat.mod_eq_of_lt hlt, UnpackedFloat.accuracyOfFraction]
    by_cases h₁ : m₁ = 0
    · simp [h₁, Accuracy.roundToNearestEven]
    · rw [if_neg h₁]
      rcases lt_trichotomy (2 * m₁) m₂ with h | h | h
      · simp [compare_lt_iff_lt.mpr h, Accuracy.roundToNearestEven, h.le]
      · simp [compare_eq_iff_eq.mpr h, Accuracy.roundToNearestEven, h.le]
      · simp [compare_gt_iff_gt.mpr h, Accuracy.roundToNearestEven, h]
  · have hpos : 0 < m₁ / m₂ := Nat.div_pos (not_lt.mp hlt) h₂
    have hle := le_roundToNearestEven (m₁ / m₂) (UnpackedFloat.accuracyOfFraction (m₁ % m₂) m₂)
    omega

/-- What the nearest double keeps of a number, as far as the sign goes: nothing up to half of the least
positive double, which is `2⁻¹⁰⁷⁴`. -/
def kept (q : ℚ) : ℚ :=
  if |q| * 2 ^ 1075 ≤ 1 then 0 else q

/-- Zero is kept. -/
theorem kept_zero : kept 0 = 0 :=
  ite_self 0

/-- What is kept of a number is the number or nothing. -/
theorem kept_eq_self {q : ℚ} (hq : kept q ≠ 0) : kept q = q := by
  unfold kept at hq ⊢
  split at hq
  · exact absurd rfl hq
  · rename_i hlt
    exact if_neg hlt

/-- Nothing is kept of numbers up to half of the least double. -/
theorem kept_eq_zero_iff {q : ℚ} : kept q = 0 ↔ q.num.natAbs * 2 ^ 1075 ≤ q.den := by
  have habs : |q| = q.num.natAbs / q.den := by
    rw [Nat.cast_natAbs, Int.cast_abs, ← Rat.num_div_den q, abs_div, Nat.abs_cast, Rat.num_div_den]
  have hcast : |q| * 2 ^ 1075 ≤ 1 ↔ q.num.natAbs * 2 ^ 1075 ≤ q.den := by
    rw [habs, div_mul_eq_mul_div, div_le_one (by exact_mod_cast q.den_pos)]
    exact_mod_cast Iff.rfl
  rw [← hcast, kept]
  constructor
  · intro h
    by_contra hlt
    rw [if_neg hlt] at h
    simp [h] at hlt
  · exact fun h => if_pos h

/-- All larger numbers are kept. -/
theorem kept_of_lt {q : ℚ} (hq : 1 < |q| * 2 ^ 1075) : kept q = q :=
  if_neg hq.not_ge

/-- A negative is kept as the number is. -/
theorem kept_neg (q : ℚ) : kept (-q) = -kept q := by
  rw [kept, kept, abs_neg]
  split <;> simp

/-- Whole numbers are kept. -/
theorem kept_intCast (n : ℤ) : kept n = n := by
  by_cases hn : n = 0
  · rw [hn, Int.cast_zero, kept_zero]
  · apply kept_of_lt
    have habs : (1 : ℚ) ≤ |(n : ℚ)| := by
      exact_mod_cast Int.one_le_abs hn
    exact one_lt_mul_of_le_of_lt habs (one_lt_pow₀ one_lt_two (by decide))

/-- Nothing is kept of a number that is far too small. -/
theorem kept_tiny : kept (1 / 10 ^ 400) = 0 := by
  apply if_pos
  have hpow : (2 : ℚ) ^ 1075 ≤ 10 ^ 400 :=
    calc (2 : ℚ) ^ 1075 ≤ 2 ^ (3 * 400) := pow_le_pow_right₀ one_le_two (by decide)
      _ = (2 ^ 3) ^ 400 := pow_mul _ _ _
      _ ≤ 10 ^ 400 := pow_le_pow_left₀ (by norm_num) (by norm_num) _
  rw [abs_of_pos (by positivity), one_div_mul_eq_div, div_le_one (by positivity)]
  exact hpow

/-- The quotient of two whole numbers as it is rounded, for a sign. -/
def roundedQuotient (sign : Sign) (m₁ m₂ : ℕ) : UnpackedFloat :=
  let (m, e, accuracy) := UnpackedFloat.divCore .binary64 m₁ 0 m₂ 0
  UnpackedFloat.roundWithAccuracy .binary64 sign m e accuracy

/-- A quotient is rounded to zero if it is at most half of the least double, and else to a rounded value.
-/
theorem roundedQuotient_spec (sign : Sign) {m₁ m₂ : ℕ} (h₁ : 0 < m₁) (h₂ : 0 < m₂) :
    (m₁ * 2 ^ 1075 ≤ m₂ → roundedQuotient sign m₁ m₂ = .zero sign) ∧
      (¬ m₁ * 2 ^ 1075 ≤ m₂ → IsRounded sign (roundedQuotient sign m₁ m₂)) := by
  have hlog₁ := (Nat.log2_eq_iff h₁.ne').mp rfl
  have hlog₂ := (Nat.log2_eq_iff h₂.ne').mp rfl
  by_cases hlarge : m₂.log2 ≤ m₁.log2 + 1021
  · have hlt : m₂ < m₁ * 2 ^ 1075 := by
      calc m₂ < 2 ^ (m₂.log2 + 1) := hlog₂.2
        _ ≤ 2 ^ (m₁.log2 + 1075) := Nat.pow_le_pow_right two_pos (by omega)
        _ = 2 ^ m₁.log2 * 2 ^ 1075 := pow_add _ _ _
        _ ≤ m₁ * 2 ^ 1075 := Nat.mul_le_mul_right _ hlog₁.1
    obtain ⟨hlog, hexponent⟩ := divCore_spec h₁ h₂ hlarge
    exact ⟨fun h => absurd hlt h.not_gt, fun _ => isRounded_roundWithAccuracy _ _ hlog hexponent⟩
  · have hshort : m₁ * 2 ^ 1074 / m₂ < 2 ^ 53 := by
      refine Nat.div_lt_of_lt_mul ?_
      calc m₁ * 2 ^ 1074 < 2 ^ (m₁.log2 + 1) * 2 ^ 1074 :=
            Nat.mul_lt_mul_of_pos_right hlog₁.2 (Nat.two_pow_pos _)
        _ = 2 ^ (m₁.log2 + 1075) := by rw [← pow_add, add_assoc]
        _ ≤ 2 ^ (m₂.log2 + 53) := Nat.pow_le_pow_right two_pos (by omega)
        _ = 2 ^ m₂.log2 * 2 ^ 53 := pow_add _ _ _
        _ ≤ m₂ * 2 ^ 53 := Nat.mul_le_mul_right _ hlog₂.1
    have hzero : 2 * (m₁ * 2 ^ 1074) ≤ m₂ ↔ m₁ * 2 ^ 1075 ≤ m₂ := by
      rw [mul_left_comm, ← pow_succ']
    rw [roundedQuotient, divCore_min (not_le.mp hlarge), ← hzero, ← roundToNearestEven_eq_zero_iff h₂]
    exact roundWithAccuracy_min sign _ hshort

/-- The nearest double of a number other than zero is its rounded quotient, packed. -/
theorem unpack_ofRat_of_ne_zero {q : ℚ} (hq : q ≠ 0) :
    (ofRat q).toModel.unpack = UnpackedFloat.unpack .binary64
      (UnpackedFloat.pack .binary64 (roundedQuotient (signOf q) q.num.natAbs q.den)) := by
  have hnum : 0 < q.num.natAbs := Int.natAbs_pos.mpr (Rat.num_ne_zero.mpr hq)
  have hsign : signOf q / Sign.positive = signOf q := by
    cases signOf q <;> rfl
  rw [ofRat]
  simp only [unpack_ofBits, unpackedWhole, dif_pos hnum, dif_pos q.den_pos, UnpackedFloat.div]
  rw [← signOf, hsign]
  rfl

/-- The nearest double of a number is a zero if nothing of the number is kept, and else an infinity or
not a zero. It has the sign of the number. -/
theorem unpack_ofRat (q : ℚ) :
    (kept q = 0 → (ofRat q).toModel.unpack = .zero (signOf q)) ∧
      (kept q ≠ 0 → IsRounded (signOf q) (ofRat q).toModel.unpack) := by
  by_cases hq : q = 0
  · subst hq
    exact ⟨fun _ => unpack_ofRat_zero, fun h => absurd kept_zero h⟩
  · have hnum : 0 < q.num.natAbs := Int.natAbs_pos.mpr (Rat.num_ne_zero.mpr hq)
    obtain ⟨hzero, hrounded⟩ := roundedQuotient_spec (signOf q) hnum q.den_pos
    rw [unpack_ofRat_of_ne_zero hq]
    constructor
    · intro h
      rw [hzero (kept_eq_zero_iff.mp h), UnpackedFloat.pack, UnpackedFloat.unpack_packedZero]
    · exact fun h => isRounded_unpack_pack (hrounded (mt kept_eq_zero_iff.mpr h))

/-! ## Comparison with zero -/

/-- A rounded value is infinite or finite, and not zero. -/
theorem IsRounded.eq_infinity_or_finite (h : IsRounded sign u) :
    u = .infinity sign ∨ ∃ m e hm, u = .finite sign m e hm := by
  cases u with
  | notANumber => exact h.elim
  | zero s => exact h.elim
  | infinity s => exact .inl (congrArg UnpackedFloat.infinity h)
  | finite s m e hm =>
    obtain ⟨rfl, -⟩ := h
    exact .inr ⟨m, e, hm, rfl⟩

/-- A rounded value compares with zero as its sign says. -/
theorem IsRounded.compare_zero {q : ℚ} (h : IsRounded (signOf q) u) (hq : q ≠ 0) (s : Sign) :
    u.compare (.zero s) = some (cmp q 0) ∧ (UnpackedFloat.zero s).compare u = some (cmp 0 q) := by
  rcases lt_or_gt_of_ne hq with hlt | hgt
  · rw [signOf, if_pos hlt] at h
    rw [(cmp_eq_lt_iff q 0).mpr hlt, (cmp_eq_gt_iff 0 q).mpr hlt]
    obtain rfl | ⟨m, e, hm, rfl⟩ := h.eq_infinity_or_finite
    · exact ⟨rfl, rfl⟩
    · exact ⟨rfl, rfl⟩
  · rw [signOf, if_neg hgt.not_gt] at h
    rw [(cmp_eq_gt_iff q 0).mpr hgt, (cmp_eq_lt_iff 0 q).mpr hgt]
    obtain rfl | ⟨m, e, hm, rfl⟩ := h.eq_infinity_or_finite
    · exact ⟨rfl, rfl⟩
    · exact ⟨rfl, rfl⟩

/-- The nearest double compares with zero as what is kept of the number does. -/
theorem compare_ofRat_zero (q : ℚ) (s : Sign) :
    (ofRat q).toModel.unpack.compare (.zero s) = some (cmp (kept q) 0) ∧
      (UnpackedFloat.zero s).compare (ofRat q).toModel.unpack = some (cmp 0 (kept q)) := by
  by_cases hq : kept q = 0
  · rw [(unpack_ofRat q).1 hq, hq, cmp_self_eq_eq]
    exact ⟨rfl, rfl⟩
  · have hrounded := (unpack_ofRat q).2 hq
    have hkept := kept_eq_self hq
    rw [hkept] at hq ⊢
    exact hrounded.compare_zero hq s

/-- The magnitude of a rounded value is a positive one. -/
theorem IsRounded.abs (h : IsRounded sign u) : IsRounded .positive u.abs := by
  cases u with
  | notANumber => exact h.elim
  | zero s => exact h.elim
  | infinity s => rfl
  | finite s m e hm => exact ⟨rfl, h.2⟩

/-- The absolute value is zero if nothing of the number is kept. -/
theorem compare_abs_ofRat_zero (q : ℚ) :
    (ofRat q).abs.toModel.unpack.compare (.zero .positive) = some (cmp |kept q| 0) := by
  have habs : (ofRat q).abs.toModel.unpack = UnpackedFloat.unpack .binary64
      (UnpackedFloat.pack .binary64 (ofRat q).toModel.unpack.abs) := rfl
  rw [habs]
  by_cases hq : kept q = 0
  · rw [(unpack_ofRat q).1 hq, hq, UnpackedFloat.abs, UnpackedFloat.pack,
      UnpackedFloat.unpack_packedZero, abs_zero, cmp_self_eq_eq]
    rfl
  · have hpositive : signOf |kept q| = .positive := if_neg (abs_nonneg _).not_gt
    have hrounded : IsRounded (signOf |kept q|) (ofRat q).toModel.unpack.abs := by
      rw [hpositive]
      exact ((unpack_ofRat q).2 hq).abs
    exact ((isRounded_unpack_pack hrounded).compare_zero (abs_ne_zero.mpr hq) _).1

/-- Doubles are compared after they are unpacked. -/
theorem lt_iff {x y : Float} : x < y ↔ x.toModel.unpack.compare y.toModel.unpack = some .lt :=
  Iff.trans (decide_eq_true_iff (p := x.toModel < y.toModel)) beq_iff_eq

/-- The same for the comparison that admits equality. -/
theorem le_iff {x y : Float} :
    x ≤ y ↔ (x.toModel.unpack.compare y.toModel.unpack).any (·.isLE) :=
  decide_eq_true_iff (p := x.toModel ≤ y.toModel)

theorem unpack_zero : (0.0 : Float).toModel.unpack = .zero .positive := rfl

theorem unpack_neg_zero : (-0.0 : Float).toModel.unpack = .zero .negative := rfl

variable {p q : ℚ}

/-- The comparison of rational numbers. -/
theorem isLE_cmp_iff : (cmp p q).isLE ↔ p ≤ q := by
  rw [← Ordering.ne_gt_iff_isLE, cmp_eq_gt_iff, not_lt]

/-- The nearest double is below zero if what is kept of the number is. -/
theorem ofRat_lt_zero (q : ℚ) : ofRat q < -0.0 ↔ kept q < 0 := by
  rw [lt_iff, unpack_neg_zero, (compare_ofRat_zero q _).1, Option.some_inj, cmp_eq_lt_iff]

/-- The nearest double is above zero if what is kept of the number is. -/
theorem zero_lt_ofRat (q : ℚ) : 0.0 < ofRat q ↔ 0 < kept q := by
  rw [lt_iff, unpack_zero, (compare_ofRat_zero q _).2, Option.some_inj, cmp_eq_lt_iff]

/-- The nearest double is at most zero if what is kept of the number is. -/
theorem ofRat_le_zero (q : ℚ) : ofRat q ≤ 0.0 ↔ kept q ≤ 0 := by
  rw [le_iff, unpack_zero, (compare_ofRat_zero q _).1, Option.any_some, isLE_cmp_iff]

/-- The nearest double is at least zero if what is kept of the number is. -/
theorem zero_le_ofRat (q : ℚ) : -0.0 ≤ ofRat q ↔ 0 ≤ kept q := by
  rw [le_iff, unpack_neg_zero, (compare_ofRat_zero q _).2, Option.any_some, isLE_cmp_iff]

/-- The nearest double is zero if nothing of the number is kept. -/
theorem abs_ofRat_le_zero (q : ℚ) : (ofRat q).abs ≤ 0.0 ↔ kept q = 0 := by
  rw [le_iff, unpack_zero, compare_abs_ofRat_zero q, Option.any_some, isLE_cmp_iff, abs_nonpos_iff]

end PseudoBoolean.Binary64
