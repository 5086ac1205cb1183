import PseudoBoolean.Polynomial.Reduction
import PseudoBoolean.Proofs.Polynomial.Conversion

/-!
# The pair that a round replaces

A round of degree reduction takes the pair of variables that occurs most often in the terms with more
variables than the target, and of several such pairs the smallest. This module shows that the choice is
a function of the polynomial alone.

* The table of counts has an entry for each pair of an oversized term, with the number of such terms
  (`mem_pairCounts`).
* The entries are compared by count first and by the reverse of the pair second (`rank`). That is a
  linear order, so a greatest entry is unique, and a search that may meet the entries in any order
  finds it (`greatest?_eq_some_iff`). The search of `mostFrequentPair?` runs through the table by
  increasing pair and keeps the first of several maxima, which comes to the same
  (`foldl_betterPair`).
* While there is an oversized term the table is not empty, so a pair is found
  (`pairSelection_wellDefined`).

What the later modules prove of a reduction would hold for any choice of a pair; they use only that one
is found (`mostFrequentPair?_spec`).
-/

namespace PseudoBoolean

open Std

/-! ## The greatest element of a list -/

section Greatest

variable {α : Type} (cmp : α → α → Ordering) {l l' : List α} {a b : α}

/-- The greatest element, found in one pass; of several the last. -/
def greatest? (l : List α) : Option α :=
  l.foldl (fun best a =>
    match best with
    | none => some a
    | some b => if cmp b a = .gt then some b else some a) none

theorem greatest?_cons_cons (b a : α) (l : List α) :
    greatest? cmp (b :: a :: l) = greatest? cmp ((if cmp b a = .gt then b else a) :: l) := by
  simp only [greatest?, List.foldl_cons]
  split <;> rfl

/-- A pass that starts with a first candidate ends with an element above all it has met. -/
theorem exists_greatest?_cons [TransCmp cmp] (b : α) (l : List α) :
    ∃ a ∈ b :: l, greatest? cmp (b :: l) = some a ∧ ∀ c ∈ b :: l, (cmp c a).isLE := by
  induction l generalizing b with
  | nil => exact ⟨b, by simp, rfl, by simp [ReflCmp.compare_self]⟩
  | cons c l ih =>
    rw [greatest?_cons_cons]
    by_cases hc : cmp b c = .gt
    · rw [if_pos hc]
      obtain ⟨a, hmem, ha, hle⟩ := ih b
      refine ⟨a, ?_, ha, ?_⟩
      · rcases List.mem_cons.mp hmem with rfl | hmem
        · exact List.mem_cons_self
        · exact List.mem_cons_of_mem _ (List.mem_cons_of_mem _ hmem)
      · obtain ⟨hba, hla⟩ := List.forall_mem_cons.mp hle
        have hcb : (cmp c b).isLE := by simp [OrientedCmp.lt_of_gt hc]
        exact List.forall_mem_cons.mpr ⟨hba,
          List.forall_mem_cons.mpr ⟨TransCmp.isLE_trans hcb hba, hla⟩⟩
    · rw [if_neg hc]
      obtain ⟨a, hmem, ha, hle⟩ := ih c
      refine ⟨a, List.mem_cons_of_mem _ hmem, ha, ?_⟩
      have hbc : (cmp b c).isLE := Ordering.isLE_iff_ne_gt.mpr hc
      exact List.forall_mem_cons.mpr
        ⟨TransCmp.isLE_trans hbc (hle c List.mem_cons_self), hle⟩

variable {cmp}

/-- In a linear order the search finds the one element above all others, wherever it stands. -/
theorem greatest?_eq_some_iff [TransCmp cmp] [LawfulEqCmp cmp] :
    greatest? cmp l = some a ↔ a ∈ l ∧ ∀ b ∈ l, (cmp b a).isLE := by
  cases l with
  | nil => simp [greatest?]
  | cons b l =>
    obtain ⟨m, hmem, hm, hle⟩ := exists_greatest?_cons cmp b l
    rw [hm, Option.some_inj]
    constructor
    · rintro rfl
      exact ⟨hmem, hle⟩
    · rintro ⟨ha, hle'⟩
      exact LawfulEqCmp.eq_of_compare (OrientedCmp.isLE_antisymm (hle' m hmem) (hle a ha))

/-- A list that is not empty has a greatest element. -/
theorem exists_greatest? (cmp : α → α → Ordering) [TransCmp cmp] (h : l ≠ []) : ∃ a, greatest? cmp l = some a := by
  obtain ⟨b, l, rfl⟩ := List.exists_cons_of_ne_nil h
  obtain ⟨a, -, ha, -⟩ := exists_greatest?_cons cmp b l
  exact ⟨a, ha⟩

/-- The order in which the elements are met does not matter. -/
theorem greatest?_eq_of_perm [TransCmp cmp] [LawfulEqCmp cmp] (h : l.Perm l') :
    greatest? cmp l = greatest? cmp l' := by
  ext a
  simp only [greatest?_eq_some_iff, h.mem_iff]

end Greatest

/-! ## Counting in a table -/

namespace Table

variable {κ : Type} [Ord κ] [TransOrd κ] [LawfulEqOrd κ] [BEq κ] [LawfulBEq κ] {k : κ} {l : List κ}

/-- How often each element of a list occurs in it. -/
def tally (l : List κ) : Table κ ℕ :=
  l.foldl (fun counts k => counts.alter k fun n => some (n.getD 0 + 1)) []

omit [TransOrd κ] [LawfulEqOrd κ] [BEq κ] [LawfulBEq κ] in
theorem tally_concat (l : List κ) (k : κ) :
    tally (l ++ [k]) = (tally l).insert k (((tally l).get? k).getD 0 + 1) := by
  rw [tally, List.foldl_append, List.foldl_cons, List.foldl_nil, ← tally]
  exact alter_eq_insert fun n => n.getD 0 + 1

omit [BEq κ] [LawfulBEq κ] in
/-- The counts are kept in a sorted table. -/
theorem sorted_tally (l : List κ) : (tally l).Sorted := by
  induction l using List.reverseRecOn with
  | nil => exact List.Pairwise.nil
  | append_singleton l k ih => rw [tally_concat]; exact ih.insert

/-- What is found for a key is how often it occurs, and nothing if it does not. -/
theorem get?_tally (l : List κ) (k : κ) :
    (tally l).get? k = if l.count k = 0 then none else some (l.count k) := by
  induction l using List.reverseRecOn with
  | nil => rfl
  | append_singleton l k' ih =>
    rw [tally_concat, List.count_append]
    by_cases hk : k = k'
    · subst hk
      rw [get?_insert_self, ih, List.count_singleton_self, if_neg (Nat.succ_ne_zero _)]
      split
      · rename_i hzero
        rw [hzero]; rfl
      · rfl
    · have hzero : [k'].count k = 0 := List.count_eq_zero.mpr (by simpa using hk)
      rw [get?_insert_of_ne hk, ih, hzero, Nat.add_zero]

theorem mem_tally {n : ℕ} : (k, n) ∈ tally l ↔ 0 < n ∧ l.count k = n := by
  rw [← get?_eq_some_iff (sorted_tally l), get?_tally]
  split
  · rename_i hzero
    rw [hzero]
    simp
    omega
  · rename_i hne
    rw [Option.some_inj]
    constructor
    · rintro rfl
      exact ⟨Nat.pos_of_ne_zero hne, rfl⟩
    · exact And.right

/-- The keys of the counts are what occurs. -/
theorem mem_keys_tally : k ∈ (tally l).keys ↔ k ∈ l := by
  simp only [mem_keys, mem_tally]
  constructor
  · rintro ⟨n, hn, heq⟩
    exact List.count_pos_iff.mp (heq ▸ hn)
  · exact fun h => ⟨l.count k, List.count_pos_iff.mpr h, rfl⟩

end Table

namespace Polynomial

variable {p : Polynomial .binary ℕ} {target x y : ℕ}

/-! ## The pairs of the oversized terms -/

/-- A pair of variables of a term with more variables than the target. -/
def IsPair (p : Polynomial .binary ℕ) (target x y : ℕ) : Prop :=
  x < y ∧ ∃ t ∈ p.terms, target < t.1.length ∧ x ∈ t.1 ∧ y ∈ t.1

/-- The number of terms with more variables than the target that contain both variables. -/
def occurrences (p : Polynomial .binary ℕ) (target x y : ℕ) : ℕ :=
  (p.termsWithPair target x y).length

/-- The pairs of a term are its sublists of two variables. -/
theorem mem_pairs_iff {t pair : Term ℕ} :
    pair ∈ pairs t ↔ ∃ x y, pair = [x, y] ∧ [x, y].Sublist t := by
  induction t with
  | nil => simp [pairs]
  | cons v t ih =>
    simp only [pairs, List.mem_append, List.mem_map, ih]
    constructor
    · rintro (⟨y, hy, rfl⟩ | ⟨x, y, rfl, h⟩)
      · exact ⟨v, y, rfl, (List.singleton_sublist.mpr hy).cons_cons v⟩
      · exact ⟨x, y, rfl, h.cons v⟩
    · rintro ⟨x, y, rfl, h⟩
      cases h with
      | cons _ h => exact .inr ⟨x, y, rfl, h⟩
      | cons_cons _ h => exact .inl ⟨y, List.singleton_sublist.mp h, rfl⟩

/-- The pairs of a canonical term are increasing pairs of its variables. -/
theorem mem_pairs {t : Term ℕ} (ht : Increasing t) :
    [x, y] ∈ pairs t ↔ x < y ∧ x ∈ t ∧ y ∈ t := by
  rw [mem_pairs_iff]
  constructor
  · rintro ⟨x, y, heq, hsub⟩
    obtain ⟨rfl, rfl⟩ : _ = x ∧ _ = y := by simpa using heq
    have hlt := (increasing_cons.mp (ht.sublist hsub)).1 y (by simp)
    exact ⟨Nat.compare_eq_lt.mp hlt, hsub.subset (by simp), hsub.subset (by simp)⟩
  · rintro ⟨hxy, hx, hy⟩
    have hinc : Increasing [x, y] :=
      increasing_cons.mpr ⟨by simpa using Nat.compare_eq_lt.mpr hxy, List.pairwise_singleton _ _⟩
    exact ⟨x, y, rfl, hinc.sublist_of_subset ht (by simp [hx, hy])⟩

/-- No pair is listed twice for one term. -/
theorem nodup_pairs {t : Term ℕ} (ht : t.Nodup) : (pairs t).Nodup := by
  induction t with
  | nil => exact List.nodup_nil
  | cons v t ih =>
    obtain ⟨hv, ht⟩ := List.nodup_cons.mp ht
    refine List.Nodup.append (ht.map fun y y' h => by simpa using h) (ih ht) ?_
    -- a pair of the rest does not start with the first variable
    intro pair hfirst hrest
    obtain ⟨y, -, rfl⟩ := List.mem_map.mp hfirst
    obtain ⟨x, y', heq, hsub⟩ := mem_pairs_iff.mp hrest
    obtain ⟨rfl, rfl⟩ : v = x ∧ y = y' := by simpa using heq
    exact hv (hsub.subset (by simp))

/-- All pairs of the terms with more variables than the target, one term after the other. -/
def candidatePairs (p : Polynomial .binary ℕ) (target : ℕ) : List (Term ℕ) :=
  (p.terms.filter fun t => target < t.1.length).flatMap fun t => pairs t.1

/-- The candidates are the pairs of the terms above the target. -/
theorem mem_candidatePairs {pair : Term ℕ} :
    pair ∈ p.candidatePairs target ↔
      ∃ x y, pair = [x, y] ∧ ∃ t ∈ p.terms, target < t.1.length ∧ [x, y].Sublist t.1 := by
  simp only [candidatePairs, List.mem_flatMap, List.mem_filter, decide_eq_true_eq, mem_pairs_iff]
  constructor
  · rintro ⟨t, ⟨ht, hlt⟩, x, y, rfl, h⟩
    exact ⟨x, y, rfl, t, ht, hlt, h⟩
  · rintro ⟨x, y, rfl, t, ht, hlt, h⟩
    exact ⟨t, ⟨ht, hlt⟩, x, y, rfl, h⟩

/-- Among the candidates a pair stands as often as there are terms with both variables. -/
theorem count_candidatePairs (hterms : ∀ e ∈ p.terms, Increasing e.1) (hxy : x < y) :
    (p.candidatePairs target).count [x, y] = p.occurrences target x y := by
  have hone : ∀ t : Term ℕ, Increasing t →
      (pairs t).count [x, y] = if t.contains x && t.contains y then 1 else 0 := by
    intro t ht
    rw [(nodup_pairs ht.nodup).count]
    simp [mem_pairs ht, hxy]
  rw [candidatePairs, occurrences, termsWithPair]
  generalize p.terms = terms at hterms
  induction terms with
  | nil => rfl
  | cons e terms ih =>
    obtain ⟨he, hterms⟩ := List.forall_mem_cons.mp hterms
    have ih := ih hterms
    by_cases hlt : target < e.1.length
    · rw [List.filter_cons_of_pos (by simpa using hlt), List.flatMap_cons, List.count_append,
        hone _ he, ih, List.filter_cons]
      simp only [hlt, decide_true, Bool.true_and]
      split
      · rw [List.length_cons, Nat.add_comm]
      · rw [Nat.zero_add]
    · rw [List.filter_cons_of_neg (by simpa using hlt), ih, List.filter_cons_of_neg]
      simp [hlt]

/-- A pair of variables occurs if and only if it is counted. -/
theorem isPair_iff : p.IsPair target x y ↔ x < y ∧ 0 < p.occurrences target x y := by
  simp only [IsPair, occurrences, termsWithPair, List.length_pos_iff_exists_mem, List.mem_filter,
    Bool.and_eq_true, decide_eq_true_eq, List.contains_iff_mem, and_assoc]

/-! ## The table of counts -/

/-- The counts of the pairs are those of the list of all candidates. -/
theorem pairCounts_eq_tally : p.pairCounts target = Table.tally (p.candidatePairs target) := by
  rw [Table.tally, candidatePairs, List.foldl_flatMap, pairCounts]

/-- The table of counts holds the pairs that occur, each with the number of its terms. -/
theorem mem_pairCounts (hterms : ∀ e ∈ p.terms, Increasing e.1) {entry : Term ℕ × ℕ} :
    entry ∈ p.pairCounts target ↔
      ∃ x y, entry = ([x, y], p.occurrences target x y) ∧ p.IsPair target x y := by
  obtain ⟨pair, n⟩ := entry
  rw [pairCounts_eq_tally, Table.mem_tally]
  constructor
  · rintro ⟨hn, rfl⟩
    obtain ⟨x, y, rfl, t, ht, hlt, hsub⟩ := mem_candidatePairs.mp (List.count_pos_iff.mp hn)
    obtain ⟨hxy, -⟩ := (mem_pairs (hterms t ht)).mp (mem_pairs_iff.mpr ⟨x, y, rfl, hsub⟩)
    rw [count_candidatePairs hterms hxy] at hn ⊢
    exact ⟨x, y, rfl, isPair_iff.mpr ⟨hxy, hn⟩⟩
  · rintro ⟨x, y, heq, hpair⟩
    obtain ⟨rfl, rfl⟩ : pair = [x, y] ∧ n = p.occurrences target x y := by simpa using heq
    obtain ⟨hxy, hpos⟩ := isPair_iff.mp hpair
    exact ⟨hpos, count_candidatePairs hterms hxy⟩

/-- While a term has more variables than the target, the table is not empty. -/
theorem pairCounts_ne_nil (h2 : 2 ≤ target) (hdeg : target < p.degree) :
    p.pairCounts target ≠ [] := by
  obtain ⟨t, ht, hlt⟩ : ∃ t ∈ p.terms, target < t.1.length := by
    by_contra hnone
    simp only [not_exists, not_and, Nat.not_lt] at hnone
    exact absurd (degree_le_iff.mpr hnone) (Nat.not_le.mpr hdeg)
  obtain ⟨v, w, t', heq⟩ : ∃ v w t', t.1 = v :: w :: t' := by
    match t.1, hlt with
    | v :: w :: t', _ => exact ⟨v, w, t', rfl⟩
    | [_], hlt => rw [List.length_singleton] at hlt; omega
    | [], hlt => rw [List.length_nil] at hlt; omega
  have hcand : [v, w] ∈ p.candidatePairs target := by
    refine mem_candidatePairs.mpr ⟨v, w, rfl, t, ht, hlt, ?_⟩
    rw [heq]
    exact ((List.nil_sublist t').cons_cons w).cons_cons v
  obtain ⟨n, hn⟩ := Table.mem_keys.mp (Table.mem_keys_tally.mpr hcand)
  rw [pairCounts_eq_tally]
  exact List.ne_nil_of_mem hn

/-! ## The order of the entries -/

/-- Entries by count; of those with the same count, the smaller pair is the greater entry. -/
def rank : Term ℕ × ℕ → Term ℕ × ℕ → Ordering :=
  compareLex (compareOn (·.2)) fun a b => compareOn (·.1) b a

instance : TransCmp rank :=
  inferInstanceAs (TransCmp (compareLex _ _))

instance : LawfulEqCmp rank where
  eq_of_compare := by
    intro a b h
    simp [rank, compareLex, compareOn, Ordering.then_eq_eq] at h
    exact Prod.ext h.2.symm h.1

/-- The entry of a pair is below another one if it occurs less often, or as often and is larger. -/
theorem isLE_rank_iff {u v m n : ℕ} :
    (rank ([u, v], m) ([x, y], n)).isLE ↔
      m < n ∨ m = n ∧ (x < u ∨ x = u ∧ y ≤ v) := by
  simp [rank, compareLex, compareOn, Ordering.isLE_then_iff_or, Nat.compare_eq_lt,
    Nat.isLE_compare]

/-- The better of the entry found so far and a further one. -/
def betterPair (best : Option (Term ℕ × ℕ)) (entry : Term ℕ × ℕ) : Option (Term ℕ × ℕ) :=
  match best with
  | none => some entry
  | some b => if b.2 < entry.2 then some entry else some b

/-- Of two entries in the order of their pairs the first ranks higher unless the second has the greater
count. -/
theorem rank_eq_gt_iff {b e : Term ℕ × ℕ} (hlt : compare b.1 e.1 = .lt) :
    rank b e = .gt ↔ ¬ b.2 < e.2 := by
  have hgt : compare e.1 b.1 = .gt := OrientedCmp.gt_of_lt hlt
  rcases Nat.lt_trichotomy b.2 e.2 with h | h | h
  · simp [rank, compareLex, compareOn, h, Nat.compare_eq_lt.mpr h]
  · simp [rank, compareLex, compareOn, h, hgt]
  · simp [rank, compareLex, compareOn, h.le, Nat.compare_eq_gt.mpr h]

/-- To keep the first of several maxima is to find the greatest entry, since the pairs increase. -/
theorem foldl_betterPair {counts : Table (Term ℕ) ℕ} {b : Term ℕ × ℕ}
    (hs : Table.Sorted (b :: counts : List (Term ℕ × ℕ))) :
    counts.foldl betterPair (some b) = greatest? rank (b :: counts) := by
  induction counts generalizing b with
  | nil => rfl
  | cons e counts ih =>
    obtain ⟨hb, hs⟩ := Table.sorted_cons.mp hs
    obtain ⟨hbe, hb⟩ := List.forall_mem_cons.mp hb
    rw [greatest?_cons_cons, List.foldl_cons, betterPair]
    by_cases hlt : b.2 < e.2
    · rw [if_pos hlt, if_neg (mt (rank_eq_gt_iff hbe).mp (not_not.mpr hlt))]
      exact ih hs
    · rw [if_neg hlt, if_pos ((rank_eq_gt_iff hbe).mpr hlt)]
      exact ih (Table.sorted_cons.mpr ⟨hb, (Table.sorted_cons.mp hs).2⟩)

/-- The chosen pair is that of the greatest entry. -/
theorem mostFrequentPair?_eq_some {n : ℕ}
    (h : greatest? rank (p.pairCounts target) = some ([x, y], n)) :
    p.mostFrequentPair? target = some (x, y) := by
  have hfold : (p.pairCounts target).foldl betterPair none = some ([x, y], n) := by
    have hs : (p.pairCounts target).Sorted := by
      rw [pairCounts_eq_tally]
      exact Table.sorted_tally _
    generalize p.pairCounts target = counts at h hs
    cases counts with
    | nil => exact absurd h (by simp [greatest?])
    | cons b counts => exact (foldl_betterPair hs).trans h
  rw [mostFrequentPair?]
  generalize hbest : List.foldl _ none (p.pairCounts target) = best
  obtain rfl : best = some ([x, y], n) := hbest.symm.trans hfold
  rfl

/-! ## The pair to replace -/

/-- The smallest of the pairs that occur most often in the terms with more variables than the target. -/
structure IsMostFrequentPair (p : Polynomial .binary ℕ) (target x y : ℕ) : Prop where
  isPair : p.IsPair target x y
  most : ∀ u v, u < v → p.occurrences target u v ≤ p.occurrences target x y
  smallest : ∀ u v, u < v → p.occurrences target u v = p.occurrences target x y →
    (u, v) ≠ (x, y) → x < u ∨ x = u ∧ y < v

/-- The greatest of the counted entries is that of the pair that occurs most often. -/
theorem isMostFrequentPair_of_greatest? (hterms : ∀ e ∈ p.terms, Increasing e.1) {best : Term ℕ × ℕ}
    (h : greatest? rank (p.pairCounts target) = some best) :
    ∃ x y, best = ([x, y], p.occurrences target x y) ∧ p.IsMostFrequentPair target x y := by
  obtain ⟨hmem, hle⟩ := greatest?_eq_some_iff.mp h
  obtain ⟨x, y, rfl, hpair⟩ := (mem_pairCounts hterms).mp hmem
  have hpos : 0 < p.occurrences target x y := (isPair_iff.mp hpair).2
  have hbelow : ∀ u v, u < v → 0 < p.occurrences target u v →
      p.occurrences target u v < p.occurrences target x y ∨
        p.occurrences target u v = p.occurrences target x y ∧ (x < u ∨ x = u ∧ y ≤ v) :=
    fun u v huv hocc => isLE_rank_iff.mp
      (hle _ ((mem_pairCounts hterms).mpr ⟨u, v, rfl, isPair_iff.mpr ⟨huv, hocc⟩⟩))
  refine ⟨x, y, rfl, hpair, fun u v huv => ?_, fun u v huv heq hne => ?_⟩
  · rcases Nat.eq_zero_or_pos (p.occurrences target u v) with hzero | hocc
    · rw [hzero]
      exact Nat.zero_le _
    · rcases hbelow u v huv hocc with hlt | ⟨heq, -⟩
      · exact hlt.le
      · exact heq.le
  · rcases hbelow u v huv (heq ▸ hpos) with hlt | ⟨-, hlt | ⟨rfl, hle⟩⟩
    · exact absurd heq hlt.ne
    · exact .inl hlt
    · exact .inr ⟨rfl, Nat.lt_of_le_of_ne hle fun hyv => hne (by rw [hyv])⟩

/-- While a canonical polynomial has a degree above the target, a round finds the smallest of the pairs
that occur most often. It is found as the greatest entry of the table of counts, which holds the pairs
that occur and nothing else, and in whatever order the entries are met. -/
theorem pairSelection_wellDefined (hterms : ∀ e ∈ p.terms, Increasing e.1) (h2 : 2 ≤ target)
    (hdeg : target < p.degree) :
    (∀ entry, entry ∈ p.pairCounts target ↔
      ∃ u v, entry = ([u, v], p.occurrences target u v) ∧ p.IsPair target u v) ∧
    ∃ x y, p.mostFrequentPair? target = some (x, y) ∧ p.IsMostFrequentPair target x y ∧
      ∀ entries, entries.Perm (p.pairCounts target) →
        greatest? rank entries = some ([x, y], p.occurrences target x y) := by
  obtain ⟨best, hbest⟩ := exists_greatest? rank (pairCounts_ne_nil h2 hdeg)
  obtain ⟨x, y, rfl, hmost⟩ := isMostFrequentPair_of_greatest? hterms hbest
  exact ⟨fun entry => mem_pairCounts hterms, x, y, mostFrequentPair?_eq_some hbest, hmost,
    fun entries hperm => (greatest?_eq_of_perm hperm).trans hbest⟩

/-- The pairs `1, 2` and `3, 4` occur in two terms each. -/
def tiedPairs : Polynomial .binary ℕ :=
  ofTerms [([3, 4, 5], 1), ([0, 3, 4], 1), ([1, 2, 3], 1), ([1, 2, 4], 1)]

/-- Of the two most frequent pairs the smaller one is taken, also if the entries are met backwards. -/
theorem pairSelection_wellDefined_tied :
    tiedPairs.mostFrequentPair? 2 = some (1, 2) ∧ tiedPairs.IsMostFrequentPair 2 1 2 ∧
      tiedPairs.occurrences 2 3 4 = tiedPairs.occurrences 2 1 2 ∧
      greatest? rank (tiedPairs.pairCounts 2).reverse = some ([1, 2], 2) := by
  have hterms : ∀ e ∈ tiedPairs.terms, Increasing e.1 := fun e he =>
    ((WellFormed.ofTerms (K := Coefficient.Any) fun _ _ => trivial).terms.entries e he).increasing
  obtain ⟨-, x, y, hpair, hmost, hperm⟩ :=
    pairSelection_wellDefined hterms (Nat.le_refl 2) (by decide)
  have hfound : tiedPairs.mostFrequentPair? 2 = some (1, 2) := by decide
  obtain ⟨rfl, rfl⟩ : 1 = x ∧ 2 = y := by simpa [hfound] using hpair
  exact ⟨hfound, hmost, by decide, hperm _ (List.reverse_perm _)⟩

/-- While a term has more variables than the target, there is a pair to replace. -/
theorem mostFrequentPair?_spec {K : Coefficient → Prop} (hp : p.WellFormed K) (h2 : 2 ≤ target)
    (hdeg : target < p.degree) :
    ∃ x y, p.mostFrequentPair? target = some (x, y) ∧ p.IsPair target x y := by
  obtain ⟨best, hbest⟩ := exists_greatest? rank (pairCounts_ne_nil h2 hdeg)
  obtain ⟨x, y, rfl, hmost⟩ := isMostFrequentPair_of_greatest?
    (fun e he => (hp.terms.entries e he).increasing) hbest
  exact ⟨x, y, mostFrequentPair?_eq_some hbest, hmost.isPair⟩

end Polynomial

end PseudoBoolean
