import PseudoBoolean.Proofs.Binary64
import PseudoBoolean.Proofs.Symbolic

/-!
# Sums and products of positive numbers

A positive double is one whose unpacked form is rounded with the positive sign (`zero_lt_iff`). A sum of
two of them is brought to a mantissa of full length, or to the least exponent, before it is packed, so it
is positive again (`zero_lt_add`). A product of two of them can be rounded to zero, but not if one is the
double nearest to a number that is at least one: that one has a mantissa of full length and an exponent
that is not below `-52` (`isLong_ofRat`), so the product is not below the least positive double
(`zero_lt_ofRat_mul`).

An exact number can be so small that it counts as zero next to a double. Those that are at least one cannot,
and together with the positive doubles they make the positive numbers (`Number.IsPositive`), of which sums
are positive (`Number.IsPositive.add`).
-/

namespace PseudoBoolean.Binary64

open Float.Model
open UnpackedFloat (Sign Accuracy ExtendedMantissa)

variable {sign : Sign} {m : ℕ} {e k : ℤ} {u v : UnpackedFloat} {q : ℚ} {x y : Float}

/-! ## Rounding -/

/-- A power of two adds its exponent to the number of digits. -/
theorem log2_mul_two_pow (hm : 0 < m) (n : ℕ) : (m * 2 ^ n).log2 = m.log2 + n := by
  obtain ⟨hle, hlt⟩ := (Nat.log2_eq_iff hm.ne').mp rfl
  have hpow := Nat.two_pow_pos n
  refine (Nat.log2_eq_iff (by positivity)).mpr ⟨?_, ?_⟩
  · rw [pow_add]
    exact Nat.mul_le_mul_right _ hle
  · rw [add_right_comm, pow_add]
    exact Nat.mul_lt_mul_of_pos_right hlt hpow

/-- The exponent to which a mantissa is rounded leaves 53 digits, unless it would be below the least one.
-/
theorem targetExponent_eq (m : ℕ) (e : ℤ) :
    Format.binary64.targetExponent (totalExponent m e) = max (m.log2 + e - 52) (-1074) := by
  simp only [Format.targetExponent, totalExponent, Format.mantissaBits, Format.minExponent]
  norm_num
  omega

/-- A mantissa that begins between the least exponent and the least normal exponent is cut to the least
exponent, and something is left of it. -/
theorem isRounded_roundWithAccuracy_low (sign : Sign) (hm : 0 < m) (he : e ≤ -1074)
    (hlow : -1074 ≤ m.log2 + e) (hhigh : m.log2 + e < -1022) :
    IsRounded sign (UnpackedFloat.roundWithAccuracy .binary64 sign m e .exact) := by
  obtain ⟨hle, hlt⟩ := (Nat.log2_eq_iff hm.ne').mp rfl
  have htarget := targetExponent_eq m e
  rw [max_eq_right (by omega)] at htarget
  obtain ⟨shift, hshift⟩ : ∃ shift : ℕ, (-1074 - e).toNat = shift := ⟨_, rfl⟩
  have hfirst : (UnpackedFloat.shiftToTargetExponent .binary64 m e .exact).1.mantissa = m / 2 ^ shift ∧
      (UnpackedFloat.shiftToTargetExponent .binary64 m e .exact).2 = -1074 := by
    simp only [UnpackedFloat.shiftToTargetExponent, htarget, UnpackedFloat.shiftToExponent, hshift,
      mantissa_shiftRight]
    exact ⟨rfl, by omega⟩
  have hpos : 0 < m / 2 ^ shift :=
    Nat.div_pos ((Nat.pow_le_pow_right two_pos (by omega)).trans hle) (Nat.two_pow_pos _)
  have hshort : m / 2 ^ shift < 2 ^ 52 := by
    rw [Nat.div_lt_iff_lt_mul (Nat.two_pow_pos _), ← pow_add]
    exact hlt.trans_le (Nat.pow_le_pow_right two_pos (by omega))
  have hbounds : ∀ em : ExtendedMantissa,
      em.mantissa ≤ em.roundedMantissa ∧ em.roundedMantissa ≤ em.mantissa + 1 := fun em =>
    ⟨le_roundToNearestEven _ _, roundToNearestEven_le _ _⟩
  obtain ⟨hdown, hup⟩ := hbounds (UnpackedFloat.shiftToTargetExponent .binary64 m e .exact).1
  rw [hfirst.1] at hdown hup
  rw [roundWithAccuracy_eq, hfirst.2]
  generalize (UnpackedFloat.shiftToTargetExponent .binary64 m e .exact).1.roundedMantissa = r at hdown hup ⊢
  have hr : r < 2 ^ 53 := by omega
  rw [cutAgain_min sign hr, dif_neg (by omega)]
  exact ⟨rfl, le_rfl, (log2_le_of_lt hr).eq_or_lt.imp_right fun h => ⟨h, rfl⟩⟩

/-- Rounding to the format, with a longer mantissa if need be. -/
theorem isRounded_round (sign : Sign) (hm : 0 < m) (he : -1074 ≤ e) :
    IsRounded sign (UnpackedFloat.round .binary64 sign m e) := by
  rw [UnpackedFloat.round, targetExponent_eq, UnpackedFloat.decreaseExponent]
  dsimp only
  obtain ⟨shift, hshift⟩ : ∃ shift : ℕ, (e - max (m.log2 + e - 52) (-1074)).toNat = shift := ⟨_, rfl⟩
  rw [hshift, Nat.shiftLeft_eq]
  have hlog := log2_mul_two_pow hm shift
  have hpos : 0 < m * 2 ^ shift := Nat.mul_pos hm (Nat.two_pow_pos _)
  by_cases hfull : 52 ≤ (m * 2 ^ shift).log2
  · exact isRounded_roundWithAccuracy sign .exact hfull (by omega)
  · -- the exponent is the least one
    have hmin : e - (shift : ℤ) = -1074 := by omega
    rw [hmin]
    refine (roundWithAccuracy_min sign .exact ?_).2 hpos.ne'
    exact ((Nat.log2_lt hpos.ne').mp (by omega : (m * 2 ^ shift).log2 < 52)).trans (by decide)

/-! ## Sums -/

/-- A double is not-a-number, a zero, or rounded with its sign. -/
theorem isRounded_unpack (x : Float) : x.toModel.unpack = .notANumber ∨
    (∃ s, x.toModel.unpack = .zero s) ∨ ∃ s, IsRounded s x.toModel.unpack := by
  have hmantissa : ∀ mantissa : BitVec 52, mantissa.toNat < 2 ^ 52 := fun mantissa => mantissa.isLt
  rw [Float.Model.unpack, UnpackedFloat.unpack]
  dsimp only
  split
  · split
    · exact .inr (.inr ⟨_, rfl⟩)
    · exact .inl rfl
  · rename_i hlast
    split
    · rename_i hfirst
      split
      · exact .inr (.inl ⟨_, rfl⟩)
      · rename_i hne
        rw [hfirst]
        refine .inr (.inr ⟨_, rfl, by decide, .inr ⟨?_, by decide⟩⟩)
        exact (Nat.log2_lt fun h0 => hne (BitVec.eq_of_toNat_eq h0)).mpr (hmantissa _)
    · rename_i hfirst
      refine .inr (.inr ⟨_, rfl, ?_, .inl (log2_one_append _)⟩)
      have hpos : ∀ n : BitVec 11, n ≠ 0#11 → 0 < n.toNat := fun n hn =>
        Nat.pos_of_ne_zero fun h0 => hn (BitVec.eq_of_toNat_eq h0)
      have hbiased := hpos _ hfirst
      simp only [Format.exponentBias]
      omega

/-- The sum of positive doubles is positive. -/
theorem IsRounded.add (hu : IsRounded .positive u) (hv : IsRounded .positive v) :
    IsRounded .positive (u.add .binary64 v) := by
  rcases hu.eq_infinity_or_finite with rfl | ⟨m₁, e₁, hm₁, rfl⟩
  · rcases hv.eq_infinity_or_finite with rfl | ⟨m₂, e₂, hm₂, rfl⟩ <;> rfl
  · rcases hv.eq_infinity_or_finite with rfl | ⟨m₂, e₂, hm₂, rfl⟩
    · rfl
    · have hpos : 0 < m₁ <<< (e₁ - min e₁ e₂).toNat + m₂ <<< (e₂ - min e₁ e₂).toNat := by
        rw [Nat.shiftLeft_eq]
        exact Nat.add_pos_left (Nat.mul_pos hm₁ (Nat.two_pow_pos _)) _
      have hround := isRounded_round .positive hpos (le_min hu.2.1 hv.2.1)
      simp only [UnpackedFloat.add, UnpackedFloat.decreaseExponent, Sign.apply, UnpackedFloat.normalize]
      rw [← Int.natCast_add, compare_gt_iff_gt.mpr (Int.natCast_pos.mpr hpos)]
      exact hround

/-- A double above zero is a rounded positive one. -/
theorem zero_lt_iff : 0.0 < x ↔ IsRounded .positive x.toModel.unpack := by
  rw [lt_iff, unpack_zero]
  constructor
  · intro hlt
    rcases isRounded_unpack x with h | ⟨s, h⟩ | ⟨s, h⟩
    · rw [h] at hlt
      cases hlt
    · rw [h] at hlt
      cases hlt
    · cases s with
      | positive => exact h
      | negative =>
        rcases h.eq_infinity_or_finite with hu | ⟨m, e, hm, hu⟩ <;> rw [hu] at hlt <;> cases hlt
  · intro h
    rcases h.eq_infinity_or_finite with h | ⟨m, e, hm, h⟩ <;> rw [h] <;> rfl

/-- Sums of doubles above zero are above zero. -/
theorem zero_lt_add (hx : 0.0 < x) (hy : 0.0 < y) : 0.0 < x + y := by
  rw [zero_lt_iff] at *
  exact isRounded_unpack_pack (hx.add hy)

/-! ## Products -/

/-- The quotient of two whole numbers that is at least one begins before the point. -/
theorem divCore_of_le {m₁ m₂ : ℕ} (h₂ : 0 < m₂) (hle : m₂ ≤ m₁) :
    (0 : ℤ) ≤ (UnpackedFloat.divCore .binary64 m₁ 0 m₂ 0).1.log2 +
      (UnpackedFloat.divCore .binary64 m₁ 0 m₂ 0).2.1 := by
  have hquotient : ∀ shift : ℕ, shift ≤ (m₁ <<< shift / m₂).log2 := fun shift => by
    have hpow : 2 ^ shift ≤ m₁ <<< shift / m₂ := by
      rw [Nat.le_div_iff_mul_le h₂, Nat.shiftLeft_eq, mul_comm]
      exact Nat.mul_le_mul_right _ hle
    have hpos := Nat.two_pow_pos shift
    exact (Nat.le_log2 (by omega)).mpr hpow
  simp only [UnpackedFloat.divCore, sub_zero]
  have hlog := hquotient (0 - min 0 (Format.binary64.targetExponent
    (totalExponent m₁ 0 - totalExponent m₂ 0))).toNat
  omega

/-- The double nearest to a number that is at least one. -/
theorem isLong_ofRat (hq : 1 ≤ q) : IsLong (-52) .positive (ofRat q).toModel.unpack := by
  have hpos : 0 < q := zero_lt_one.trans_le hq
  have hle : q.den ≤ q.num.natAbs := by
    have hnum : (q.den : ℤ) ≤ q.num := by
      rw [← Rat.num_div_den q, one_le_div (by exact_mod_cast q.den_pos)] at hq
      exact_mod_cast hq
    omega
  have hsign : signOf q = .positive := if_neg hpos.not_gt
  have hnum : 0 < q.num.natAbs := q.den_pos.trans_le hle
  have hlog : q.den.log2 ≤ q.num.natAbs.log2 :=
    (Nat.le_log2 hnum.ne').mpr ((Nat.log2_self_le q.den_pos.ne').trans hle)
  obtain ⟨hfull, hexponent⟩ := divCore_spec hnum q.den_pos (by omega)
  have hbegin := divCore_of_le q.den_pos hle
  rw [unpack_ofRat_of_ne_zero hpos.ne', hsign]
  refine isLong_unpack_pack ?_ (by decide)
  exact (isLong_roundWithAccuracy .positive _ hfull hexponent).mono (by omega)

/-- The product of two positive values, of which the first is at least one, is not rounded to zero. -/
theorem isRounded_product {m₁ m₂ : ℕ} {e₁ e₂ : ℤ} (hlog : m₁.log2 = 52) (he₁ : -52 ≤ e₁)
    (hm₂ : 0 < m₂) (he₂ : -1074 ≤ e₂) : IsRounded sign
      (UnpackedFloat.roundWithAccuracy .binary64 sign (m₁ * m₂) (e₁ + e₂) .exact) := by
  have hm₁ : 0 < m₁ := Nat.pos_of_ne_zero fun h0 => by simp [h0] at hlog
  have hproduct : 52 + m₂.log2 ≤ (m₁ * m₂).log2 := by
    rw [Nat.le_log2 (Nat.mul_pos hm₁ hm₂).ne', pow_add, ← hlog]
    exact Nat.mul_le_mul (Nat.log2_self_le hm₁.ne') (Nat.log2_self_le hm₂.ne')
  by_cases hnormal : -1022 ≤ (m₁ * m₂).log2 + (e₁ + e₂)
  · exact isRounded_roundWithAccuracy sign .exact (by omega) (by omega)
  · exact isRounded_roundWithAccuracy_low sign (Nat.mul_pos hm₁ hm₂) (by omega) (by omega) (by omega)

/-- A long value is infinite or has 53 digits and an exponent that is not too small. -/
theorem IsLong.eq_infinity_or_finite (h : IsLong k sign u) :
    u = .infinity sign ∨ ∃ m e hm, u = .finite sign m e hm ∧ k ≤ e ∧ m.log2 = 52 := by
  cases u with
  | notANumber => exact h.elim
  | zero s => exact h.elim
  | infinity s => exact .inl (congrArg UnpackedFloat.infinity h)
  | finite s m e hm =>
    obtain ⟨rfl, he⟩ := h
    exact .inr ⟨m, e, hm, rfl, he⟩

/-- A product with a double that is at least one is not rounded to zero, on either side. -/
theorem IsLong.mul (hu : IsLong (-52) .positive u) (hv : IsRounded .positive v) :
    IsRounded .positive (u.mul .binary64 v) ∧ IsRounded .positive (v.mul .binary64 u) := by
  rcases hu.eq_infinity_or_finite with rfl | ⟨m₁, e₁, hm₁, rfl, he₁, hlog⟩
  · rcases hv.eq_infinity_or_finite with rfl | ⟨m₂, e₂, hm₂, rfl⟩ <;> exact ⟨rfl, rfl⟩
  · rcases hv.eq_infinity_or_finite with rfl | ⟨m₂, e₂, hm₂, rfl⟩
    · exact ⟨rfl, rfl⟩
    · have hproduct : IsRounded .positive (UnpackedFloat.roundWithAccuracy .binary64 .positive
          (m₁ * m₂) (e₁ + e₂) .exact) := isRounded_product hlog he₁ hm₂ hv.2.1
      refine ⟨hproduct, ?_⟩
      rw [UnpackedFloat.mul, mul_comm m₂, add_comm e₂]
      exact hproduct

/-- A factor of at least one on the left keeps a double above zero. -/
theorem zero_lt_ofRat_mul (hq : 1 ≤ q) (hx : 0.0 < x) : 0.0 < ofRat q * x := by
  rw [zero_lt_iff] at *
  exact isRounded_unpack_pack ((isLong_ofRat hq).mul hx).1

/-- A factor of at least one on the right keeps a double above zero. -/
theorem zero_lt_mul_ofRat (hq : 1 ≤ q) (hx : 0.0 < x) : 0.0 < x * ofRat q := by
  rw [zero_lt_iff] at *
  exact isRounded_unpack_pack ((isLong_ofRat hq).mul hx).2

end PseudoBoolean.Binary64

/-! ## Numbers -/

namespace PseudoBoolean.Number

open PseudoBoolean.Binary64

variable {a b : Number}

/-- An exact number that is at least one. -/
def IsLarge (a : Number) : Prop :=
  ∃ q, 1 ≤ q ∧ a = exact q

/-- A positive double, or an exact number that is at least one. -/
def IsPositive (a : Number) : Prop :=
  a.IsLarge ∨ ∃ x, 0.0 < x ∧ a = float x

/-- The nearest double of a number that is at least one is above zero. -/
theorem zero_lt_ofRat_of_one_le {q : ℚ} (hq : 1 ≤ q) : 0.0 < ofRat q :=
  zero_lt_iff.mpr ((isLong_ofRat hq).isRounded (by decide))

/-- Sums of numbers that are at least one are so. -/
theorem IsLarge.add (ha : a.IsLarge) (hb : b.IsLarge) : (a + b).IsLarge := by
  obtain ⟨p, hp, rfl⟩ := ha
  obtain ⟨q, hq, rfl⟩ := hb
  exact ⟨p + q, by linarith, rfl⟩

/-- Products of numbers that are at least one are so. -/
theorem IsLarge.mul (ha : a.IsLarge) (hb : b.IsLarge) : (a * b).IsLarge := by
  obtain ⟨p, hp, rfl⟩ := ha
  obtain ⟨q, hq, rfl⟩ := hb
  exact ⟨p * q, one_le_mul_of_one_le_of_one_le hp hq, rfl⟩

/-- Sums of positive numbers are positive, exact or not. -/
theorem IsPositive.add (ha : a.IsPositive) (hb : b.IsPositive) : (a + b).IsPositive := by
  rcases ha with ha | ⟨x, hx, rfl⟩
  · rcases hb with hb | ⟨y, hy, rfl⟩
    · exact .inl (ha.add hb)
    · obtain ⟨p, hp, rfl⟩ := ha
      exact .inr ⟨_, zero_lt_add (zero_lt_ofRat_of_one_le hp) hy, rfl⟩
  · rcases hb with ⟨q, hq, rfl⟩ | ⟨y, hy, rfl⟩
    · exact .inr ⟨_, zero_lt_add hx (zero_lt_ofRat_of_one_le hq), rfl⟩
    · exact .inr ⟨_, zero_lt_add hx hy, rfl⟩

/-- A positive number times one that is at least one is positive. -/
theorem IsLarge.mul_isPositive (ha : a.IsLarge) (hb : b.IsPositive) : (a * b).IsPositive := by
  rcases hb with hb | ⟨y, hy, rfl⟩
  · exact .inl (ha.mul hb)
  · obtain ⟨p, hp, rfl⟩ := ha
    exact .inr ⟨_, zero_lt_ofRat_mul hp hy, rfl⟩

/-- The same with the factors exchanged. -/
theorem IsPositive.mul_isLarge (ha : a.IsPositive) (hb : b.IsLarge) : (a * b).IsPositive := by
  rcases ha with ha | ⟨x, hx, rfl⟩
  · exact .inl (ha.mul hb)
  · obtain ⟨q, hq, rfl⟩ := hb
    exact .inr ⟨_, zero_lt_mul_ofRat hq hx, rfl⟩

/-- A positive number does not test as zero. -/
theorem IsPositive.isZero_eq_false (ha : a.IsPositive) : a.isZero = false := by
  rw [Bool.eq_false_iff]
  intro hzero
  rcases ha with ⟨q, hq, rfl⟩ | ⟨x, hx, rfl⟩
  · rw [isZero_exact] at hzero
    linarith
  · have hequal : x.toModel.unpack.compare (.zero .positive) = some .eq := beq_iff_eq.mp hzero
    rcases (zero_lt_iff.mp hx).eq_infinity_or_finite with h | ⟨m, e, hm, h⟩ <;>
      rw [h] at hequal <;> cases hequal

/-- A number above zero is positive in this sense if it is a double or whole. -/
theorem isPositive_of_lt (h : lt 0 a) (hwhole : ∀ q, a = exact q → q.den = 1) : a.IsPositive := by
  have hcompare : compare? (exact 0) a = some .lt := beq_iff_eq.mp h
  cases a with
  | exact q =>
    have hlt : 0 < q := by
      by_contra hle
      simp only [compare?, if_neg hle, Option.some_inj] at hcompare
      split at hcompare <;> cases hcompare
    refine .inl ⟨q, ?_, rfl⟩
    have hnum := Rat.num_pos.mpr hlt
    rw [← Rat.num_div_den q, hwhole q rfl, Nat.cast_one, div_one]
    exact_mod_cast hnum
  | float x =>
    refine .inr ⟨x, ?_, rfl⟩
    have hlt : ofRat 0 < x := by
      by_contra hle
      have hothers : (if ofRat 0 == x then some Ordering.eq
          else if x < ofRat 0 then some .gt else none) = some .lt :=
        (if_neg hle).symm.trans hcompare
      split at hothers
      · cases hothers
      · split at hothers <;> cases hothers
    rwa [lt_iff, unpack_ofRat_zero, ← unpack_zero, ← lt_iff] at hlt

end PseudoBoolean.Number
