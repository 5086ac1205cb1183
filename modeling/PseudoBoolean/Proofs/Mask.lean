import Mathlib.Data.List.Nodup
import Mathlib.Data.Nat.Bitwise
import PseudoBoolean.Mask

/-!
# Sets of positions

As long as all positions are below 64, nothing is shifted out of a word: a bit of the word is set exactly
if its position is in the set (`testBit_ofPositions`). With that, `includes` and `size` say what they say of
the positions of a list (`includes_ofPositions`, `size_and_ofPositions`).
-/

namespace PseudoBoolean

namespace Mask

variable {m code : Mask} {i j n : ℕ} {positions : List ℕ}

theorem toNat_ofNat (h : n < 2 ^ 64) : (UInt64.ofNat n).toNat = n :=
  UInt64.toNat_ofNat_of_lt' h

/-- A single position below 64 stays in the word. -/
theorem toNat_single (h : i < 64) : (single i).toNat = 2 ^ i := by
  have hi : (UInt64.ofNat i).toNat = i := toNat_ofNat (h.trans (by decide))
  rw [single, UInt64.toNat_shiftLeft, hi, Nat.mod_eq_of_lt h, UInt64.toNat_one, Nat.one_shiftLeft,
    Nat.mod_eq_of_lt (Nat.pow_lt_pow_right Nat.one_lt_two h)]

/-- The last bit of a shifted number. -/
theorem bit_eq (hn : n < 2 ^ 64) (hi : i < 64) :
    UInt64.ofNat n >>> UInt64.ofNat i &&& 1 = if n.testBit i then 1 else 0 := by
  have hshift : (UInt64.ofNat i).toNat % 64 = i := by
    rw [toNat_ofNat (hi.trans (by decide)), Nat.mod_eq_of_lt hi]
  rw [← UInt64.toNat_inj, UInt64.toNat_and, UInt64.toNat_shiftRight, toNat_ofNat hn, hshift,
    UInt64.toNat_one, Nat.and_one_is_mod, Nat.shiftRight_eq_div_pow, ← Nat.toNat_testBit]
  cases n.testBit i <;> rfl

/-- The bits of a mask are the positions it was made of. -/
theorem testBit_ofPositions (h : ∀ i ∈ positions, i < 64) :
    (ofPositions positions).toNat.testBit j ↔ j ∈ positions := by
  have key : ∀ start : Mask, (positions.foldl (fun m i => m ||| single i) start).toNat.testBit j ↔
      start.toNat.testBit j ∨ j ∈ positions := by
    induction positions with
    | nil => simp
    | cons i positions ih =>
      intro start
      obtain ⟨hi, hrest⟩ := List.forall_mem_cons.mp h
      rw [List.foldl_cons, ih hrest, UInt64.toNat_or, Nat.testBit_or, toNat_single hi, List.mem_cons,
        Bool.or_eq_true, Nat.testBit_two_pow, decide_eq_true_eq, or_assoc, @eq_comm _ i]
  exact (key 0).trans (by simp)

/-- A set whose positions are below `n` is a word below `2 ^ n`. -/
theorem toNat_ofPositions_lt (h : ∀ i ∈ positions, i < n) (hn : n ≤ 64) :
    (ofPositions positions).toNat < 2 ^ n := by
  refine Nat.lt_pow_two_of_testBit _ fun j hj => ?_
  have hbit := testBit_ofPositions (j := j) fun i hi => (h i hi).trans_le hn
  exact Bool.eq_false_iff.mpr fun hset => absurd (h j (hbit.mp hset)) (Nat.not_lt.mpr hj)

/-- A code includes a mask when it has all its bits. -/
theorem includes_iff : includes code m ↔ ∀ j, m.toNat.testBit j → code.toNat.testBit j := by
  rw [includes, beq_iff_eq, ← UInt64.toNat_inj, UInt64.toNat_and]
  constructor
  · intro h j hj
    have hbit := congrArg (Nat.testBit · j) h
    rwa [Nat.testBit_and, hj, Bool.and_true] at hbit
  · intro h
    refine Nat.eq_of_testBit_eq fun j => ?_
    rw [Nat.testBit_and]
    by_cases hj : m.toNat.testBit j
    · rw [hj, h j hj, Bool.and_true]
    · rw [Bool.eq_false_iff.mpr hj, Bool.and_false]

/-- A code includes the mask of some positions when it has a one at each of them. -/
theorem includes_ofPositions (h : ∀ i ∈ positions, i < 64) :
    includes code (ofPositions positions) = positions.all code.toNat.testBit := by
  rw [Bool.eq_iff_iff, includes_iff, List.all_eq_true]
  simp only [testBit_ofPositions h]

/-- The count below `n` counts the ones at the positions below `n`. -/
theorem countBelow_eq (n : ℕ) (m : Mask) : countBelow n m = (List.range n).countP m.toNat.testBit := by
  induction n generalizing m with
  | zero => rfl
  | succ n ih =>
    rw [countBelow]
    split
    · rename_i hm
      exact (List.countP_eq_zero.mpr fun i _ => by simp [hm]).symm
    · have hlow : (m &&& 1).toNat = if m.toNat.testBit 0 then 1 else 0 := by
        rw [UInt64.toNat_and, UInt64.toNat_one, Nat.and_one_is_mod, Nat.testBit_zero]
        rcases Nat.mod_two_eq_zero_or_one m.toNat with h | h <;> simp [h]
      have hshift : ∀ i, (m >>> 1).toNat.testBit i = m.toNat.testBit (i + 1) := fun i => by
        rw [UInt64.toNat_shiftRight, UInt64.toNat_one, Nat.testBit_shiftRight, Nat.add_comm]
      rw [ih, hlow, List.range_succ_eq_map, List.countP_cons, List.countP_map, Nat.add_comm]
      exact congrArg (· + _) (List.countP_congr fun i _ => by rw [hshift]; rfl)

/-- The size of an intersection with the set of a list is the number of common positions. -/
theorem size_and_ofPositions (h : ∀ i ∈ positions, i < 64) (hnodup : positions.Nodup) :
    size (code &&& ofPositions positions) = positions.countP code.toNat.testBit := by
  have hcommon : ((List.range 64).filter (code &&& ofPositions positions).toNat.testBit).Perm
      (positions.filter code.toNat.testBit) := by
    refine (List.perm_ext_iff_of_nodup (List.nodup_range.filter _) (hnodup.filter _)).mpr fun i => ?_
    rw [List.mem_filter, List.mem_filter, UInt64.toNat_and, Nat.testBit_and, Bool.and_eq_true,
      testBit_ofPositions h, List.mem_range]
    exact ⟨fun ⟨_, hcode, hi⟩ => ⟨hi, hcode⟩, fun ⟨hi, hcode⟩ => ⟨h i hi, hcode, hi⟩⟩
  rw [size, countBelow_eq, List.countP_eq_length_filter, List.countP_eq_length_filter,
    hcommon.length_eq]

end Mask

end PseudoBoolean
