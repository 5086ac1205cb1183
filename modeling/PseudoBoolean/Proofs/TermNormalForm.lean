import Mathlib.Logic.Basic
import PseudoBoolean.Proofs.Term
import PseudoBoolean.VariableIndex

/-!
# Normal forms of products

`Term.normalize` adds the factors of a product one at a time, each at its place. The same term comes out
when the factors are sorted first and a single pass with a stack then compares every factor with its
neighbour (`reverse_foldl_pushFactor`): among sorted factors each one belongs at the end of the term built so
far, so the stack is that term read backwards.

What is left is determined by the domain and the multiplicities alone. From this follow the invariance
under permutations, the idempotence, and the terms of a product of two terms: the union of their
variables in the binary domain and the symmetric difference in the spin domain.
-/

namespace PseudoBoolean.Term

open Std

variable {V : Type} [Variable V] {d : Domain} {v w : V} {s t : Term V} {l l' : List V}

/-! ## One pass over sorted factors -/

/-- One step of the pass. A factor that equals the top of the stack is dropped in the binary domain, and
cancels the top in the spin domain. -/
def pushFactor (d : Domain) (factors : List V) (v : V) : List V :=
  match factors with
  | [] => [v]
  | w :: rest =>
    if w == v then
      match d with
      | .binary => w :: rest
      | .spin => rest
    else v :: w :: rest

/-- Adding a factor to a term, by the rule of the domain. -/
def addFactor (d : Domain) (t : Term V) (v : V) : Term V :=
  match d with
  | .binary => t.insert v
  | .spin => t.toggle v

/-- The normal form takes up one factor after the other. -/
theorem normalize_eq_foldl (d : Domain) (l : List V) : normalize d l = l.foldl (addFactor d) [] := by
  cases d <;> rfl

/-- Taking up a factor keeps the term increasing. -/
theorem increasing_addFactor (h : Increasing t) : Increasing (addFactor d t v) := by
  cases d with
  | binary => exact increasing_insert h
  | spin => exact increasing_toggle h

theorem mem_of_mem_addFactor (ht : Increasing t) (h : w ∈ addFactor d t v) : w = v ∨ w ∈ t := by
  cases d with
  | binary => exact mem_insert.mp h
  | spin =>
    rcases (mem_toggle ht).mp h with ⟨-, h⟩ | ⟨h, -⟩
    · exact .inr h
    · exact .inl h

/-- Smaller variables in front do not take part in the addition of a factor. -/
theorem addFactor_append (h : ∀ u ∈ s, compare v u = .gt) :
    addFactor d (s ++ t) v = s ++ addFactor d t v := by
  induction s with
  | nil => rfl
  | cons u s ih =>
    obtain ⟨hu, hs⟩ := List.forall_mem_cons.mp h
    have ih := ih hs
    cases d with
    | binary =>
      simp only [addFactor] at ih ⊢
      rw [List.cons_append, insert, hu, List.cons_append, ← ih]
    | spin =>
      simp only [addFactor] at ih ⊢
      rw [List.cons_append, toggle, hu, List.cons_append, ← ih]

/-- A factor that no variable of the term exceeds is added at the end, where the stack has its top. -/
theorem reverse_addFactor (ht : Increasing t) (hle : ∀ u ∈ t, (compare u v).isLE) :
    (addFactor d t v).reverse = pushFactor d t.reverse v := by
  rcases List.eq_nil_or_concat' t with rfl | ⟨t', w, rfl⟩
  · cases d <;> rfl
  · have hw : (compare w v).isLE := hle w (by simp)
    have hlt : ∀ u ∈ t', compare u w = .lt := fun u hu =>
      (List.pairwise_append.mp ht).2.2 u hu w (by simp)
    have hgt : ∀ u ∈ t', compare v u = .gt := fun u hu =>
      OrientedCmp.gt_of_lt (TransCmp.lt_of_lt_of_isLE (hlt u hu) hw)
    rw [addFactor_append hgt, List.reverse_append, List.reverse_append, List.reverse_singleton,
      List.singleton_append]
    by_cases heq : w = v
    · subst heq
      cases d <;> simp [addFactor, insert, toggle, pushFactor]
    · have hc : compare v w = .gt := by
        refine OrientedCmp.gt_of_lt (Ordering.isLE_iff_eq_lt_or_eq_eq.mp hw |>.resolve_right ?_)
        exact fun h => heq (LawfulEqOrd.eq_of_compare h)
      cases d <;> simp [addFactor, insert, toggle, pushFactor, hc, heq]

/-- The pass over sorted factors builds the normal form, last variable first. -/
theorem reverse_foldl_pushFactor (d : Domain) (hs : l.Pairwise fun u v => (compare u v).isLE) :
    (l.foldl (pushFactor d) []).reverse = normalize d l := by
  have key : ∀ t : Term V, Increasing t → (∀ u ∈ t, ∀ v ∈ l, (compare u v).isLE) →
      l.foldl (pushFactor d) t.reverse = (l.foldl (addFactor d) t).reverse := by
    induction l with
    | nil => exact fun _ _ _ => rfl
    | cons v l ih =>
      intro t ht hle
      obtain ⟨hv, hs⟩ := List.pairwise_cons.mp hs
      rw [List.foldl_cons, List.foldl_cons,
        ← reverse_addFactor ht fun u hu => hle u hu v List.mem_cons_self]
      refine ih hs _ (increasing_addFactor ht) fun u hu w hw => ?_
      rcases mem_of_mem_addFactor ht hu with rfl | hu
      · exact hv w hw
      · exact hle u hu w (List.mem_cons_of_mem _ hw)
  have h := key [] List.Pairwise.nil fun _ hu => absurd hu List.not_mem_nil
  rw [List.reverse_nil] at h
  rw [h, List.reverse_reverse, normalize_eq_foldl]

/-! ## The normal form by its variables -/

/-- Over binary variables the normal form has each variable that occurs, once. -/
theorem normalize_binary_eq_iff :
    normalize .binary l = t ↔ Increasing t ∧ ∀ v, v ∈ t ↔ v ∈ l := by
  constructor
  · rintro rfl
    exact ⟨increasing_normalize _ l, fun v => mem_normalize_binary⟩
  · rintro ⟨ht, hmem⟩
    exact (increasing_normalize _ l).ext ht fun v => mem_normalize_binary.trans (hmem v).symm

/-- Over spins the normal form has the variables that occur an odd number of times. -/
theorem normalize_spin_eq_iff :
    normalize .spin l = t ↔ Increasing t ∧ ∀ v, v ∈ t ↔ Odd (l.count v) := by
  constructor
  · rintro rfl
    exact ⟨increasing_normalize _ l, fun v => mem_normalize_spin⟩
  · rintro ⟨ht, hmem⟩
    exact (increasing_normalize _ l).ext ht fun v => mem_normalize_spin.trans (hmem v).symm

/-- A normal form is its own normal form. -/
theorem normalize_normalize (d : Domain) (l : List V) :
    normalize d (normalize d l) = normalize d l :=
  normalize_of_increasing d (increasing_normalize d l)

/-- A product of binary terms has the variables of both. -/
theorem mem_normalize_append_binary : v ∈ normalize .binary (s ++ t) ↔ v ∈ s ∨ v ∈ t := by
  rw [mem_normalize_binary, List.mem_append]

/-- A spin variable that both terms contain cancels in their product. -/
theorem mem_normalize_append_spin (hs : Increasing s) (ht : Increasing t) :
    v ∈ normalize .spin (s ++ t) ↔ Xor (v ∈ s) (v ∈ t) := by
  rw [mem_normalize_spin, List.count_append, hs.nodup.count, ht.nodup.count]
  by_cases hvs : v ∈ s <;> by_cases hvt : v ∈ t <;> simp [hvs, hvt, Xor, Nat.odd_iff]

/-- The normal form in either domain, as the only increasing list with the right variables. It depends on
the factors up to their order, is its own normal form, comes out of sorting and one pass with a stack,
and multiplies terms by the union or the symmetric difference of their variables. -/
theorem normalize_normalForm (V : Type) [Variable V] :
    (∀ l t : List V, normalize .binary l = t ↔ Increasing t ∧ ∀ v, v ∈ t ↔ v ∈ l) ∧
    (∀ l t : List V, normalize .spin l = t ↔ Increasing t ∧ ∀ v, v ∈ t ↔ Odd (l.count v)) ∧
    ∀ d : Domain,
      (∀ l sorted : List V, sorted.Perm l → (sorted.Pairwise fun u v => (compare u v).isLE) →
        normalize d l = (sorted.foldl (pushFactor d) []).reverse) ∧
      (∀ l l' : List V, l.Perm l' → normalize d l = normalize d l') ∧
      (∀ l : List V, normalize d (normalize d l) = normalize d l) ∧
      ∀ s t : Term V, Increasing s → Increasing t →
        Increasing (normalize d (s ++ t)) ∧
          ∀ v, v ∈ normalize d (s ++ t) ↔
            match d with
            | .binary => v ∈ s ∨ v ∈ t
            | .spin => Xor (v ∈ s) (v ∈ t) := by
  refine ⟨fun l t => normalize_binary_eq_iff, fun l t => normalize_spin_eq_iff,
    fun d => ⟨?_, ?_, ?_, ?_⟩⟩
  · intro l sorted hperm hs
    rw [reverse_foldl_pushFactor d hs, normalize_eq_of_perm d hperm]
  · exact fun l l' => normalize_eq_of_perm d
  · exact normalize_normalize d
  · intro s t hs ht
    refine ⟨increasing_normalize d (s ++ t), fun v => ?_⟩
    cases d with
    | binary => exact mem_normalize_append_binary
    | spin => exact mem_normalize_append_spin hs ht

/-- Runs of two, one and three factors: the first cancels, and of the last one factor is left. -/
theorem normalize_normalForm_runs :
    (∀ v, v ∈ [1, 2] ↔ Odd ([2, 0, 1, 2, 0, 2].count v)) ∧
      normalize .spin [2, 0, 1, 2, 0, 2] = ([0, 0, 1, 2, 2, 2].foldl (pushFactor .spin) []).reverse ∧
      normalize .binary [2, 0, 1, 2, 0, 2] = normalize .binary [2, 2, 2, 1, 0, 0] ∧
      ∀ v, v ∈ normalize .spin ([0, 1] ++ [1, 2]) ↔ Xor (v ∈ [0, 1]) (v ∈ [1, 2]) := by
  obtain ⟨-, hspin, hdomain⟩ := normalize_normalForm ℕ
  obtain ⟨hsorted, -, -, happend⟩ := hdomain .spin
  obtain ⟨-, hperm, -, -⟩ := hdomain .binary
  exact ⟨((hspin _ _).mp (by decide)).2, hsorted _ _ (by decide) (by decide), hperm _ _ (by decide),
    (happend _ _ (by decide) (by decide)).2⟩

end PseudoBoolean.Term
