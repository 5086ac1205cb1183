import Mathlib.Algebra.BigOperators.Group.List.Lemmas
import Mathlib.Algebra.BigOperators.Ring.List
import Mathlib.Algebra.Order.Ring.Abs
import Mathlib.Tactic.FieldSimp
import Mathlib.Tactic.Linarith
import Mathlib.Tactic.Ring
import PseudoBoolean.Proofs.Table
import PseudoBoolean.Term

/-!
# Terms as products

The value of a term at a point `x` is the product of the values of its variables. `Term.normalize`
leads to an increasing list and keeps the value of the product, because a binary value is its own
square and the square of a spin value is one. How often each variable occurs decides whether it is left,
so the order of the factors does not matter (`normalize_eq_of_perm`).

A term of one domain expands into the sum over its subsets in the other (`sum_subsets`); the expansion
holds of any values, in either domain or not.
-/

namespace PseudoBoolean

open Std

/-! ## Values of a domain -/

namespace Domain

variable {d e : Domain} {q : ℚ}

/-- One of the two values of the domain. -/
def IsValue (d : Domain) (q : ℚ) : Prop :=
  ∃ b : Bool, q = (d.ofBit b : ℤ)

/-- Binary variables are zero or one. -/
theorem isValue_binary : IsValue binary q ↔ q = 0 ∨ q = 1 := by
  simp [IsValue, ofBit]

/-- Spin variables are one or minus one. -/
theorem isValue_spin : IsValue spin q ↔ q = 1 ∨ q = -1 := by
  simp [IsValue, ofBit]

/-- A bit stands for a value of the domain. -/
theorem isValue_ofBit (d : Domain) (b : Bool) : d.IsValue (d.ofBit b : ℤ) := ⟨b, rfl⟩

/-- The integers in a domain are those that bits stand for. -/
theorem contains_iff {n : ℤ} : d.contains n ↔ ∃ b, n = d.ofBit b := by
  simp [contains, values]

/-- An integer in a domain is a value of it. -/
theorem isValue_of_contains {n : ℤ} (h : d.contains n) : d.IsValue n := by
  obtain ⟨b, rfl⟩ := contains_iff.mp h
  exact isValue_ofBit d b

/-- The value in `d` of a variable whose value in `e` is `w`. -/
def carry (d e : Domain) (w : ℚ) : ℚ :=
  if e = d then w else d.substitution.1 + d.substitution.2 * w

/-- Within one domain a value is carried to itself. -/
@[simp]
theorem carry_self (w : ℚ) : carry d d w = w := if_pos rfl

/-- The same position is carried to the same position. -/
theorem carry_ofBit (d e : Domain) (b : Bool) : carry d e (e.ofBit b : ℤ) = (d.ofBit b : ℤ) := by
  cases d <;> cases e <;> cases b <;> simp [carry, substitution, ofBit] <;> norm_num

/-- A value is carried to a value of the other domain. -/
theorem IsValue.carry (h : e.IsValue q) : d.IsValue (carry d e q) := by
  obtain ⟨b, rfl⟩ := h
  exact ⟨b, carry_ofBit d e b⟩

/-- Carrying a value to the other domain and back leads to the value itself. -/
theorem carry_carry (d e : Domain) (w : ℚ) : carry d e (carry e d w) = w := by
  cases d <;> cases e <;> simp [carry, substitution] <;> ring

/-- The substitution between the domains can be inverted. -/
theorem substitution_ne_zero (d : Domain) : d.substitution.2 ≠ 0 := by
  cases d <;> norm_num [substitution]

end Domain

/-- A point gives every variable a value of the domain. -/
def Domain.IsPoint {V : Type} (d : Domain) (x : V → ℚ) : Prop :=
  ∀ v, d.IsValue (x v)

namespace Term

/-- The value of a term at a point. -/
def eval {V : Type} (x : V → ℚ) (t : Term V) : ℚ :=
  (t.map x).prod

section Eval

variable {V : Type} {x y : V → ℚ} {v : V} {t : Term V}

@[simp]
theorem eval_nil : eval x [] = 1 := rfl

/-- The first variable is a factor of the value. -/
@[simp]
theorem eval_cons : eval x (v :: t) = x v * eval x t := by
  simp [eval]

/-- The value of a product of terms is the product of the values. -/
theorem eval_append (s t : Term V) : eval x (s ++ t) = eval x s * eval x t := by
  simp [eval]

/-- The value depends on the variables of the term only. -/
theorem eval_congr (h : ∀ v ∈ t, x v = y v) : eval x t = eval y t :=
  congrArg List.prod (List.map_congr_left h)

/-- The value does not depend on the order of the variables. -/
theorem eval_perm {s : Term V} (h : s.Perm t) : eval x s = eval x t :=
  (h.map x).prod_eq

/-- The value of a term is whole. -/
theorem exists_eval_eq {d : Domain} (hx : d.IsPoint x) (t : Term V) : ∃ n : ℤ, eval x t = n := by
  induction t with
  | nil => exact ⟨1, by simp⟩
  | cons v t ih =>
    obtain ⟨n, hn⟩ := ih
    obtain ⟨b, hb⟩ := hx v
    exact ⟨d.ofBit b * n, by rw [eval_cons, hb, hn, Int.cast_mul]⟩

/-- A term is never negative at binary points. -/
theorem eval_nonneg (hx : Domain.binary.IsPoint x) (t : Term V) : 0 ≤ eval x t := by
  induction t with
  | nil => simp
  | cons v t ih =>
    rcases Domain.isValue_binary.mp (hx v) with h | h
    · simp [h]
    · simpa [h] using ih

/-- A term is at most one at binary points. -/
theorem eval_le_one (hx : Domain.binary.IsPoint x) (t : Term V) : eval x t ≤ 1 := by
  induction t with
  | nil => simp
  | cons v t ih =>
    rcases Domain.isValue_binary.mp (hx v) with h | h
    · simp [h]
    · simpa [h] using ih

/-- A term is one or minus one at spin points. -/
theorem abs_eval (hx : Domain.spin.IsPoint x) (t : Term V) : |eval x t| = 1 := by
  induction t with
  | nil => simp
  | cons v t ih =>
    rw [eval_cons, abs_mul, ih]
    rcases Domain.isValue_spin.mp (hx v) with h | h <;> simp [h]

end Eval

/-! ## Normal forms -/

section Normalize

variable {V : Type} [Variable V] {x : V → ℚ} {v w : V} {t : Term V} {l : List V}

/-- Insertion adds one variable. -/
@[simp]
theorem mem_insert : w ∈ insert v t ↔ w = v ∨ w ∈ t := by
  induction t with
  | nil => simp [insert]
  | cons u t ih =>
    cases hc : compare v u with
    | lt => simp [insert, hc]
    | eq =>
      obtain rfl := LawfulEqOrd.eq_of_compare hc
      simp [insert]
    | gt =>
      simp only [insert, hc, List.mem_cons, ih]
      exact or_left_comm

/-- Insertion keeps the order. -/
theorem increasing_insert (h : Increasing t) : Increasing (insert v t) := by
  induction t with
  | nil => exact List.pairwise_singleton _ _
  | cons u t ih =>
    obtain ⟨hlt, hinc⟩ := increasing_cons.mp h
    cases hc : compare v u with
    | lt =>
      rw [insert, hc]
      refine increasing_cons.mpr ⟨List.forall_mem_cons.mpr ⟨hc, fun w hw => ?_⟩, h⟩
      exact TransCmp.lt_trans hc (hlt w hw)
    | eq =>
      rw [insert, hc]
      exact h
    | gt =>
      rw [insert, hc]
      refine increasing_cons.mpr ⟨fun w hw => ?_, ih hinc⟩
      rcases mem_insert.mp hw with rfl | hw
      · exact OrientedCmp.lt_of_gt hc
      · exact hlt w hw

/-- Insertion is multiplication where a square is the variable itself. -/
theorem eval_insert (hv : x v * x v = x v) : eval x (insert v t) = x v * eval x t := by
  induction t with
  | nil => simp [insert]
  | cons u t ih =>
    cases hc : compare v u with
    | lt => simp [insert, hc]
    | eq =>
      obtain rfl := LawfulEqOrd.eq_of_compare hc
      rw [insert, hc, eval_cons, ← mul_assoc, hv]
    | gt =>
      rw [insert, hc, eval_cons, ih, eval_cons]
      ring

/-- A variable is toggled: it is put in if it was not there, and taken out if it was. -/
theorem mem_toggle (h : Increasing t) :
    w ∈ toggle v t ↔ (w ≠ v ∧ w ∈ t) ∨ (w = v ∧ v ∉ t) := by
  induction t with
  | nil => simp [toggle]
  | cons u t ih =>
    obtain ⟨hlt, hinc⟩ := increasing_cons.mp h
    have hnot : u ∉ t := (List.nodup_cons.mp h.nodup).1
    cases hc : compare v u with
    | lt =>
      have hv : v ∉ u :: t := fun hmem => by
        rcases List.mem_cons.mp hmem with rfl | hmem
        · simp at hc
        · have := TransCmp.lt_trans hc (hlt v hmem)
          simp at this
      rw [toggle, hc, List.mem_cons]
      by_cases hw : w = v
      · simp [hw, hv]
      · simp [hw]
    | eq =>
      obtain rfl := LawfulEqOrd.eq_of_compare hc
      rw [toggle, hc]
      by_cases hw : w = v
      · simp [hw, hnot]
      · simp [hw]
    | gt =>
      have hvu : v ≠ u := fun h => by simp [h] at hc
      simp only [toggle, hc, List.mem_cons, ih hinc]
      by_cases hw : w = v
      · simp [hw, hvu]
      · simp [hw]

/-- Toggling keeps the order. -/
theorem increasing_toggle (h : Increasing t) : Increasing (toggle v t) := by
  induction t with
  | nil => exact List.pairwise_singleton _ _
  | cons u t ih =>
    obtain ⟨hlt, hinc⟩ := increasing_cons.mp h
    cases hc : compare v u with
    | lt =>
      rw [toggle, hc]
      refine increasing_cons.mpr ⟨List.forall_mem_cons.mpr ⟨hc, fun w hw => ?_⟩, h⟩
      exact TransCmp.lt_trans hc (hlt w hw)
    | eq =>
      rw [toggle, hc]
      exact hinc
    | gt =>
      rw [toggle, hc]
      refine increasing_cons.mpr ⟨fun w hw => ?_, ih hinc⟩
      rcases (mem_toggle hinc).mp hw with ⟨-, hw⟩ | ⟨rfl, -⟩
      · exact hlt w hw
      · exact OrientedCmp.lt_of_gt hc

/-- Toggling is multiplication where a square is one. -/
theorem eval_toggle (hv : x v * x v = 1) : eval x (toggle v t) = x v * eval x t := by
  induction t with
  | nil => simp [toggle]
  | cons u t ih =>
    cases hc : compare v u with
    | lt => simp [toggle, hc]
    | eq =>
      obtain rfl := LawfulEqOrd.eq_of_compare hc
      rw [toggle, hc, eval_cons, ← mul_assoc, hv, one_mul]
    | gt =>
      rw [toggle, hc, eval_cons, ih, eval_cons]
      ring

/-- The normal form of a product is increasing. -/
theorem increasing_normalize (d : Domain) (l : List V) : Increasing (normalize d l) := by
  have hbin : ∀ (l : List V) (t : Term V), Increasing t →
      Increasing (l.foldl (fun t v => insert v t) t) := fun l => by
    induction l with
    | nil => exact fun _ h => h
    | cons v l ih => exact fun t h => ih _ (increasing_insert h)
  have hspin : ∀ (l : List V) (t : Term V), Increasing t →
      Increasing (l.foldl (fun t v => toggle v t) t) := fun l => by
    induction l with
    | nil => exact fun _ h => h
    | cons v l ih => exact fun t h => ih _ (increasing_toggle h)
  cases d with
  | binary => exact hbin l [] List.Pairwise.nil
  | spin => exact hspin l [] List.Pairwise.nil

/-- The normal form has the value of the product at every point of the domain. -/
theorem eval_normalize {d : Domain} (hx : d.IsPoint x) (l : List V) :
    eval x (normalize d l) = eval x l := by
  have hbin (hsq : ∀ v, x v * x v = x v) : ∀ (l : List V) (t : Term V),
      eval x (l.foldl (fun t v => insert v t) t) = eval x t * eval x l := fun l => by
    induction l with
    | nil => simp
    | cons v l ih =>
      intro t
      rw [List.foldl_cons, ih, eval_insert (hsq v), eval_cons]
      ring
  have hspin (hsq : ∀ v, x v * x v = 1) : ∀ (l : List V) (t : Term V),
      eval x (l.foldl (fun t v => toggle v t) t) = eval x t * eval x l := fun l => by
    induction l with
    | nil => simp
    | cons v l ih =>
      intro t
      rw [List.foldl_cons, ih, eval_toggle (hsq v), eval_cons]
      ring
  cases d with
  | binary =>
    refine (hbin (fun v => ?_) l []).trans (one_mul _)
    rcases Domain.isValue_binary.mp (hx v) with h | h <;> simp [h]
  | spin =>
    refine (hspin (fun v => ?_) l []).trans (one_mul _)
    rcases Domain.isValue_spin.mp (hx v) with h | h <;> simp [h]

/-- Over binary variables the normal form has the same variables. -/
theorem mem_normalize_binary : v ∈ normalize .binary l ↔ v ∈ l := by
  have key : ∀ t : Term V, v ∈ l.foldl (fun t v => insert v t) t ↔ v ∈ l ∨ v ∈ t := by
    induction l with
    | nil => simp
    | cons w l ih =>
      intro t
      rw [List.foldl_cons, ih, mem_insert, List.mem_cons]
      tauto
  simpa [normalize] using key []

/-- A spin variable is left if it occurs an odd number of times. -/
theorem mem_normalize_spin : v ∈ normalize .spin l ↔ Odd (l.count v) := by
  have key : ∀ t : Term V, Increasing t →
      (v ∈ l.foldl (fun t v => toggle v t) t ↔ (Odd (l.count v) ↔ v ∉ t)) := by
    induction l with
    | nil => simp
    | cons w l ih =>
      intro t ht
      rw [List.foldl_cons, ih _ (increasing_toggle ht), mem_toggle ht]
      by_cases hv : v = w
      · subst hv
        rw [List.count_cons_self, Nat.odd_add_one]
        tauto
      · rw [List.count_cons_of_ne (Ne.symm hv)]
        simp [hv]
  simpa [normalize] using key [] List.Pairwise.nil

/-- No variable is added to a product. -/
theorem mem_of_mem_normalize {d : Domain} (h : v ∈ normalize d l) : v ∈ l := by
  cases d with
  | binary => exact mem_normalize_binary.mp h
  | spin => exact List.count_pos_iff.mp (mem_normalize_spin.mp h).pos

/-- A product of distinct variables keeps them all. -/
theorem mem_normalize (d : Domain) (h : l.Nodup) : v ∈ normalize d l ↔ v ∈ l := by
  refine ⟨mem_of_mem_normalize, fun hv => ?_⟩
  cases d with
  | binary => exact mem_normalize_binary.mpr hv
  | spin =>
    rw [mem_normalize_spin, h.count, if_pos hv]
    exact odd_one

/-- The order of the factors does not matter. -/
theorem normalize_eq_of_perm (d : Domain) {l' : List V} (h : l.Perm l') :
    normalize d l = normalize d l' := by
  refine (increasing_normalize d l).ext (increasing_normalize d l') fun v => ?_
  cases d with
  | binary => rw [mem_normalize_binary, mem_normalize_binary, h.mem_iff]
  | spin => rw [mem_normalize_spin, mem_normalize_spin, h.count_eq]

/-- Without repetitions the normal form only orders the variables. -/
theorem normalize_perm (d : Domain) (h : l.Nodup) : (normalize d l).Perm l :=
  (List.perm_ext_iff_of_nodup (increasing_normalize d l).nodup h).mpr fun _ => mem_normalize d h

/-- The normal form is not longer. -/
theorem length_normalize_le (d : Domain) (l : List V) : (normalize d l).length ≤ l.length :=
  (List.subperm_of_subset (increasing_normalize d l).nodup fun _ => mem_of_mem_normalize).length_le

/-- A term in normal form stays as it is. -/
theorem normalize_of_increasing (d : Domain) (h : Increasing t) : normalize d t = t :=
  (increasing_normalize d t).ext h fun _ => mem_normalize d h.nodup

end Normalize

/-! ## Subsets -/

section Subsets

variable {V : Type} {v : V} {s t : Term V}

/-- The subsets of a term are its sublists. -/
@[simp]
theorem mem_subsets : s ∈ subsets t ↔ s.Sublist t := by
  induction t generalizing s with
  | nil => simp [subsets]
  | cons v t ih =>
    simp only [subsets, List.mem_flatMap, ih, List.mem_cons, List.not_mem_nil, or_false,
      List.sublist_cons_iff]
    constructor
    · rintro ⟨u, hu, rfl | rfl⟩
      · exact .inl hu
      · exact .inr ⟨u, rfl, hu⟩
    · rintro (h | ⟨u, rfl, hu⟩)
      · exact ⟨s, h, .inl rfl⟩
      · exact ⟨u, hu, .inr rfl⟩

/-- The sum of a function over the subsets, split by the first variable. -/
theorem sum_subsets_cons (f : Term V → ℚ) :
    ((subsets (v :: t)).map f).sum =
      ((subsets t).map f).sum + ((subsets t).map fun s => f (v :: s)).sum := by
  rw [subsets]
  induction subsets t with
  | nil => simp
  | cons s l ih =>
    simp only [List.flatMap_cons, List.map_append, List.map_cons, List.map_nil, List.sum_append,
      List.sum_cons, List.sum_nil, ih]
    ring

/-- The product of `a + b * w` over the variables of a term, multiplied out. -/
theorem sum_subsets (a b : ℚ) (w : V → ℚ) (t : Term V) :
    ((subsets t).map fun s => a ^ (t.length - s.length) * b ^ s.length * eval w s).sum =
      eval (fun v => a + b * w v) t := by
  induction t with
  | nil => simp [subsets]
  | cons v t ih =>
    have hskip : ((subsets t).map fun s =>
        a ^ ((v :: t).length - s.length) * b ^ s.length * eval w s).sum =
        a * eval (fun v => a + b * w v) t := by
      rw [← ih, ← List.sum_map_mul_left]
      refine congrArg List.sum (List.map_congr_left fun s hs => ?_)
      have hle : s.length ≤ t.length := (mem_subsets.mp hs).length_le
      rw [List.length_cons, Nat.succ_sub hle, pow_succ]
      ring
    have htake : ((subsets t).map fun s =>
        a ^ ((v :: t).length - (v :: s).length) * b ^ (v :: s).length * eval w (v :: s)).sum =
        b * w v * eval (fun v => a + b * w v) t := by
      rw [← ih, ← List.sum_map_mul_left]
      refine congrArg List.sum (List.map_congr_left fun s _ => ?_)
      rw [List.length_cons, List.length_cons, Nat.add_sub_add_right, eval_cons, pow_succ]
      ring
    rw [sum_subsets_cons, hskip, htake, eval_cons]
    ring

/-- Among its subsets a term itself is found exactly once. -/
theorem sum_subsets_self [DecidableEq V] (f : Term V → ℚ) (t : Term V) :
    ((subsets t).map fun s => if s = t then f s else 0).sum = f t := by
  induction t generalizing f with
  | nil => simp [subsets]
  | cons v t ih =>
    have hskip : ((subsets t).map fun s => if s = v :: t then f s else 0).sum = 0 := by
      refine List.sum_eq_zero fun q hq => ?_
      obtain ⟨s, hs, rfl⟩ := List.mem_map.mp hq
      refine if_neg fun heq => ?_
      have hle := (mem_subsets.mp hs).length_le
      rw [heq, List.length_cons] at hle
      omega
    rw [sum_subsets_cons, hskip, zero_add]
    simpa using ih fun s => f (v :: s)

end Subsets

end Term

end PseudoBoolean
