import Mathlib.Algebra.BigOperators.Group.List.Basic
import Mathlib.Data.List.Sort
import Mathlib.Tactic.Abel
import PseudoBoolean.Table

/-!
# What an alteration does to a table

Every operation on terms, monomials and ancilla records is a sequence of `Table.alter`. This module
says what one alteration does to the three views that the later proofs use:

* membership and `get?` (`mem_alter_self`, `get?_alter_self`), which need the table to be sorted;
* properties of all entries (`forall_mem_alter`);
* sums over the entries (`total_alter`), which hold of every list, sorted or not. The value of a
  polynomial, each single coefficient of it and its image among the formal polynomials are all such
  sums, so one lemma serves all of them.
-/

namespace PseudoBoolean

open Std

/-! ## Increasing lists -/

/-- No two elements are each smaller than the other. -/
theorem antisymm_compare_lt {α κ : Type} [Ord κ] [TransOrd κ] (key : α → κ) :
    Std.Antisymm fun a b : α => compare (key a) (key b) = .lt where
  antisymm a b hab hba := by
    have := TransCmp.lt_trans hab hba
    simp at this

/-- Lists without repetition in the same strict order of a key are determined by their elements. -/
theorem eq_of_increasing_by {α κ : Type} [Ord κ] [TransOrd κ] (key : α → κ) {l₁ l₂ : List α}
    (h₁ : l₁.Pairwise fun a b => compare (key a) (key b) = .lt)
    (h₂ : l₂.Pairwise fun a b => compare (key a) (key b) = .lt) (h : ∀ a, a ∈ l₁ ↔ a ∈ l₂) :
    l₁ = l₂ := by
  have : Std.Irrefl fun a b : α => compare (key a) (key b) = .lt := ⟨fun a ha => by simp at ha⟩
  have := antisymm_compare_lt key
  exact h₁.eq_of_mem_iff h₂ h

/-- Every element is smaller than those after it. -/
def Increasing {κ : Type} [Ord κ] (l : List κ) : Prop :=
  l.Pairwise fun a b => compare a b = .lt

instance {κ : Type} [Ord κ] (l : List κ) : Decidable (Increasing l) :=
  inferInstanceAs (Decidable (l.Pairwise _))

section Increasing

variable {κ : Type} [Ord κ] [TransOrd κ] {a : κ} {l l₁ l₂ : List κ}

omit [TransOrd κ] in
theorem increasing_cons :
    Increasing (a :: l) ↔ (∀ b ∈ l, compare a b = .lt) ∧ Increasing l :=
  List.pairwise_cons

/-- An increasing list repeats nothing. -/
theorem Increasing.nodup (h : Increasing l) : l.Nodup := by
  refine List.Pairwise.imp ?_ h
  rintro a b hab rfl
  simp at hab

/-- Increasing lists with the same elements are equal. -/
theorem Increasing.ext (h₁ : Increasing l₁) (h₂ : Increasing l₂) (h : ∀ a, a ∈ l₁ ↔ a ∈ l₂) :
    l₁ = l₂ :=
  eq_of_increasing_by id h₁ h₂ h

/-- Increasing lists of which one has all elements of the other. -/
theorem Increasing.sublist_of_subset (h₁ : Increasing l₁) (h₂ : Increasing l₂) (h : l₁ ⊆ l₂) :
    l₁.Sublist l₂ := by
  have : Std.Antisymm fun a b : κ => compare a b = .lt := antisymm_compare_lt id
  exact List.sublist_of_subperm_of_pairwise (List.subperm_of_subset h₁.nodup h) h₁ h₂

end Increasing

/-- Two lists of which all entries are compared agree if the comparison decides equality of entries. -/
theorem entrywise_iff_eq {α : Type} {r : α → α → Bool} {l l' : List α}
    (h : ∀ a ∈ l, ∀ b ∈ l', r a b = true ↔ a = b) :
    (l.length == l'.length && (l.zip l').all fun (a, b) => r a b) = true ↔ l = l' := by
  induction l generalizing l' with
  | nil => cases l' <;> simp
  | cons a l ih =>
    cases l' with
    | nil => simp
    | cons b l' =>
      have hrest : (l.length == l'.length && (l.zip l').all fun (a, b) => r a b) = true ↔ l = l' :=
        ih fun a ha b hb => h a (List.mem_cons_of_mem _ ha) b (List.mem_cons_of_mem _ hb)
      rw [Bool.and_eq_true] at hrest
      simp only [List.length_cons, List.zip_cons_cons, List.all_cons, Bool.and_eq_true,
        List.cons.injEq, ← hrest, h a List.mem_cons_self b List.mem_cons_self, beq_iff_eq,
        Nat.add_right_cancel_iff]
      tauto

namespace Table

variable {κ α β : Type} [Ord κ]

/-! ## Look-up -/

section Lookup

variable {k k' : κ} {v : α} {t : Table κ α}

omit [Ord κ] in
@[simp]
theorem keys_cons (e : κ × α) (t : Table κ α) : keys (e :: t : List (κ × α)) = e.1 :: keys t := rfl

omit [Ord κ] in
/-- The keys are what stands beside a value. -/
theorem mem_keys : k ∈ t.keys ↔ ∃ v, (k, v) ∈ t := by
  simp [keys]

theorem sorted_cons {e : κ × α} :
    Sorted (e :: t : List (κ × α)) ↔ (∀ e' ∈ t, compare e.1 e'.1 = .lt) ∧ t.Sorted :=
  List.pairwise_cons

variable [TransOrd κ] [LawfulEqOrd κ]

omit [TransOrd κ] in
/-- The keys of a sorted table are distinct. -/
theorem Sorted.keys_nodup (h : t.Sorted) : t.keys.Nodup := by
  refine List.pairwise_map.mpr (h.imp ?_)
  intro a b hab heq
  rw [heq, ReflOrd.compare_self] at hab
  exact absurd hab (by decide)

/-- On a sorted table the look-up finds exactly the entries. -/
theorem get?_eq_some_iff (h : t.Sorted) : t.get? k = some v ↔ (k, v) ∈ t := by
  induction t with
  | nil => simp [get?]
  | cons e t ih =>
    obtain ⟨k₀, v₀⟩ := e
    obtain ⟨hlt, hs⟩ := sorted_cons.mp h
    rw [get?]
    split
    · -- a smaller key: it is none of the larger ones that follow
      rename_i hk
      have hne : k ≠ k₀ := fun h => by simp [h] at hk
      have hnot : (k, v) ∉ t := fun hm => by
        have := TransCmp.lt_trans hk (hlt _ hm)
        simp at this
      simp [hne, hnot]
    · rename_i hk
      obtain rfl := LawfulEqOrd.eq_of_compare hk
      have hnot : (k, v) ∉ t := fun hm => by simpa using hlt _ hm
      simp [hnot, eq_comm]
    · rename_i hk
      have hne : k ≠ k₀ := fun h => by simp [h] at hk
      simp [ih hs, hne]

/-- Nothing is found exactly for what is not a key. -/
theorem get?_eq_none_iff (h : t.Sorted) : t.get? k = none ↔ k ∉ t.keys := by
  rw [Option.eq_none_iff_forall_ne_some, mem_keys, not_exists]
  simp only [ne_eq, get?_eq_some_iff h]

/-- A sorted table contains exactly its keys. -/
theorem contains_iff (h : t.Sorted) : t.contains k ↔ k ∈ t.keys := by
  rw [contains, Option.isSome_iff_exists, mem_keys]
  simp only [get?_eq_some_iff h]

omit [TransOrd κ] in
/-- A look-up that succeeds has found an entry, in any list. -/
theorem mem_of_get?_eq_some (h : t.get? k = some v) : (k, v) ∈ t := by
  induction t with
  | nil => simp [get?] at h
  | cons e t ih =>
    rw [get?] at h
    split at h
    · simp at h
    · rename_i hk
      obtain rfl := LawfulEqOrd.eq_of_compare hk
      obtain rfl := Option.some_inj.mp h
      exact List.mem_cons_self
    · exact List.mem_cons_of_mem _ (ih h)

omit [TransOrd κ] [LawfulEqOrd κ] in
/-- A key that stands before all keys of a list is not found in it. -/
theorem get?_eq_none_of_lt (h : ∀ e ∈ t, compare k e.1 = .lt) : t.get? k = none := by
  cases t with
  | nil => rfl
  | cons e t => simp [get?, h e (by simp)]

omit [LawfulEqOrd κ] in
/-- Tables with the same entries are equal. -/
theorem Sorted.ext {t₁ t₂ : Table κ α} (h₁ : t₁.Sorted) (h₂ : t₂.Sorted)
    (h : ∀ k v, (k, v) ∈ t₁ ↔ (k, v) ∈ t₂) : t₁ = t₂ :=
  eq_of_increasing_by (Prod.fst : κ × α → κ) h₁ h₂ fun e => h e.1 e.2

/-- Tables in which the look-ups agree are equal. -/
theorem Sorted.ext_get? {t₁ t₂ : Table κ α} (h₁ : t₁.Sorted) (h₂ : t₂.Sorted)
    (h : ∀ k, t₁.get? k = t₂.get? k) : t₁ = t₂ :=
  h₁.ext h₂ fun k v => by rw [← get?_eq_some_iff h₁, ← get?_eq_some_iff h₂, h]

omit [TransOrd κ] in
theorem get?_cons_self {e : κ × α} : get? e.1 (e :: t) = some e.2 := by
  rw [get?, ReflOrd.compare_self]

/-- The search passes a first entry with another key. -/
theorem get?_cons_of_ne {e : κ × α} (hlt : ∀ e' ∈ t, compare e.1 e'.1 = .lt)
    (hne : k ≠ e.1) : get? k (e :: t) = t.get? k := by
  rw [get?]
  split
  · rename_i hk
    exact (get?_eq_none_of_lt fun e' he' => TransCmp.lt_trans hk (hlt e' he')).symm
  · rename_i hk
    exact absurd (LawfulEqOrd.eq_of_compare hk) hne
  · rfl

end Lookup

/-! ## One alteration -/

section Alter

variable {k k' : κ} {v : α} {t : Table κ α} {f : Option α → Option α}

/-- What holds of all entries and of the new one holds of all entries afterwards. -/
theorem forall_mem_alter {P : κ × α → Prop} (h : ∀ e ∈ t, P e)
    (hnew : ∀ v, f (t.get? k) = some v → P (k, v)) : ∀ e ∈ t.alter k f, P e := by
  induction t with
  | nil =>
    rw [alter]
    split
    · simp
    · rename_i v hv
      simpa using hnew v hv
  | cons e t ih =>
    obtain ⟨k₀, v₀⟩ := e
    rw [get?] at hnew
    obtain ⟨he, ht⟩ := List.forall_mem_cons.mp h
    rw [alter]
    split
    · rename_i hk
      simp only [hk] at hnew
      split
      · exact h
      · rename_i v hv
        exact List.forall_mem_cons.mpr ⟨hnew v hv, h⟩
    · rename_i hk
      simp only [hk] at hnew
      split
      · exact ht
      · rename_i v hv
        exact List.forall_mem_cons.mpr ⟨hnew v hv, ht⟩
    · rename_i hk
      simp only [hk] at hnew
      exact List.forall_mem_cons.mpr ⟨he, ih ht hnew⟩

variable [TransOrd κ] [LawfulEqOrd κ]

/-- Changing one entry keeps the table sorted. -/
theorem Sorted.alter (h : t.Sorted) : (t.alter k f).Sorted := by
  induction t with
  | nil =>
    rw [Table.alter]
    split
    · exact List.Pairwise.nil
    · exact List.pairwise_singleton _ _
  | cons e t ih =>
    obtain ⟨k₀, v₀⟩ := e
    obtain ⟨hlt, hs⟩ := sorted_cons.mp h
    rw [Table.alter]
    split
    · rename_i hk
      split
      · exact h
      · refine sorted_cons.mpr ⟨List.forall_mem_cons.mpr ⟨hk, fun e he => ?_⟩, h⟩
        exact TransCmp.lt_trans hk (hlt e he)
    · rename_i hk
      obtain rfl := LawfulEqOrd.eq_of_compare hk
      split
      · exact hs
      · exact sorted_cons.mpr ⟨hlt, hs⟩
    · rename_i hk
      refine sorted_cons.mpr ⟨?_, ih hs⟩
      exact forall_mem_alter (P := fun e => compare k₀ e.1 = .lt) hlt
        fun _ _ => OrientedCmp.lt_of_gt hk

omit [TransOrd κ] in
/-- At its own key the altered table has what the alteration makes of the old value. -/
theorem get?_alter_self (h : t.Sorted) : (t.alter k f).get? k = f (t.get? k) := by
  induction t with
  | nil => cases hv : f none <;> simp [alter, get?, hv]
  | cons e t ih =>
    obtain ⟨k₀, v₀⟩ := e
    obtain ⟨hlt, hs⟩ := sorted_cons.mp h
    cases hk : compare k k₀ with
    | lt => cases hv : f none <;> simp [alter, get?, hk, hv]
    | eq =>
      obtain rfl := LawfulEqOrd.eq_of_compare hk
      cases hv : f (some v₀) with
      | none => simpa [alter, get?, hv] using get?_eq_none_of_lt hlt
      | some v => simp [alter, get?, hv]
    | gt => simp [alter, get?, hk, ih hs]

omit [TransOrd κ] in
/-- The entries at other keys are left alone. -/
theorem mem_alter_of_ne (hne : k' ≠ k) : (k', v) ∈ t.alter k f ↔ (k', v) ∈ t := by
  induction t with
  | nil => cases hv : f none <;> simp [alter, hv, hne]
  | cons e t ih =>
    obtain ⟨k₀, v₀⟩ := e
    cases hk : compare k k₀ with
    | lt => cases hv : f none <;> simp [alter, hk, hv, hne]
    | eq =>
      obtain rfl := LawfulEqOrd.eq_of_compare hk
      cases hv : f (some v₀) <;> simp [alter, hv, hne]
    | gt => simp [alter, hk, ih]

/-- After a change, the key stands with the new value if there is one. -/
theorem mem_alter_self (h : t.Sorted) : (k, v) ∈ t.alter k f ↔ f (t.get? k) = some v := by
  rw [← get?_eq_some_iff h.alter, get?_alter_self h]

end Alter

/-! ## Insertion

Setting a value needs no order of the entries that are there already. -/

section Insert

variable {k k' : κ} {v v' : α} {t : Table κ α} [TransOrd κ] [LawfulEqOrd κ]

theorem Sorted.insert (h : t.Sorted) : (t.insert k v).Sorted :=
  h.alter

omit [TransOrd κ] in
/-- What was inserted is found. -/
@[simp]
theorem get?_insert_self : (t.insert k v).get? k = some v := by
  rw [insert]
  induction t with
  | nil => simp [alter, get?]
  | cons e t ih =>
    obtain ⟨k₀, v₀⟩ := e
    cases hk : compare k k₀ <;> simp [alter, get?, hk, ih]

/-- Inserting leaves the other keys as they were. -/
theorem get?_insert_of_ne (hne : k' ≠ k) : (t.insert k v).get? k' = t.get? k' := by
  have hc : compare k' k ≠ .eq := fun h => hne (LawfulEqOrd.eq_of_compare h)
  rw [insert]
  induction t with
  | nil => cases hkk : compare k' k <;> simp_all [alter, get?]
  | cons e t ih =>
    obtain ⟨k₀, v₀⟩ := e
    cases hk : compare k k₀ with
    | lt =>
      cases hkk : compare k' k with
      | lt => simp [alter, get?, hk, hkk, TransCmp.lt_trans hkk hk]
      | eq => exact absurd hkk hc
      | gt => simp [alter, get?, hk, hkk]
    | eq =>
      obtain rfl := LawfulEqOrd.eq_of_compare hk
      cases hkk : compare k' k with
      | lt => simp [alter, get?, hkk]
      | eq => exact absurd hkk hc
      | gt => simp [alter, get?, hkk]
    | gt => cases hkk : compare k' k₀ <;> simp [alter, get?, hk, hkk, ih]

omit [TransOrd κ] [LawfulEqOrd κ] in
/-- An alteration that always gives a value is an insertion. -/
theorem alter_eq_insert (f : Option α → α) :
    t.alter k (fun old => some (f old)) = t.insert k (f (t.get? k)) := by
  rw [insert]
  induction t with
  | nil => rfl
  | cons e t ih =>
    obtain ⟨k₀, v₀⟩ := e
    cases hk : compare k k₀ <;> simp [alter, get?, hk, ih]

/-- The entries after inserting: the new one, and the old ones at other keys. -/
theorem mem_insert (h : t.Sorted) :
    (k', v') ∈ t.insert k v ↔ (k' = k ∧ v' = v) ∨ (k' ≠ k ∧ (k', v') ∈ t) := by
  by_cases hk : k' = k
  · subst hk
    rw [insert, mem_alter_self h]
    simp [eq_comm]
  · rw [insert, mem_alter_of_ne hk]
    simp [hk]

/-- The keys after inserting are the old keys and the new one. -/
theorem mem_keys_insert (h : t.Sorted) : k' ∈ keys (t.insert k v) ↔ k' = k ∨ k' ∈ t.keys := by
  simp only [mem_keys, mem_insert h]
  by_cases hk : k' = k <;> simp [hk]

/-- Inserting entry after entry keeps the table sorted. -/
theorem sorted_insertAll (entries : List (κ × α)) (h : t.Sorted) :
    (entries.foldl (fun t e => t.insert e.1 e.2) t).Sorted := by
  induction entries generalizing t with
  | nil => exact h
  | cons e entries ih => exact ih h.insert

/-- A list of insertions leaves the keys alone that it does not mention. -/
theorem get?_insertAll_of_notMem (entries : List (κ × α)) (hk : k ∉ entries.map (·.1)) :
    (entries.foldl (fun t e => t.insert e.1 e.2) t).get? k = t.get? k := by
  induction entries generalizing t with
  | nil => rfl
  | cons e entries ih =>
    simp only [List.map_cons, List.mem_cons, not_or] at hk
    rw [List.foldl_cons, ih hk.2, get?_insert_of_ne hk.1]

/-- Entries with distinct keys are all found after their insertion. -/
theorem get?_insertAll (entries : List (κ × α)) (hnodup : (entries.map (·.1)).Nodup)
    (hmem : (k, v) ∈ entries) :
    (entries.foldl (fun t e => t.insert e.1 e.2) t).get? k = some v := by
  induction entries generalizing t with
  | nil => simp at hmem
  | cons e entries ih =>
    obtain ⟨hnot, hnodup⟩ := List.nodup_cons.mp hnodup
    rcases List.mem_cons.mp hmem with rfl | hmem
    · rw [List.foldl_cons, get?_insertAll_of_notMem _ hnot, get?_insert_self]
    · exact ih hnodup hmem

theorem sorted_ofList (entries : List (κ × α)) : (ofList entries).Sorted :=
  sorted_insertAll entries List.Pairwise.nil

/-- A table made of entries with distinct keys finds each of them. -/
theorem get?_ofList {entries : List (κ × α)} (hnodup : (entries.map (·.1)).Nodup)
    (hmem : (k, v) ∈ entries) : (ofList entries).get? k = some v :=
  get?_insertAll entries hnodup hmem

/-- Every entry of a table made of a list is one of the list. -/
theorem mem_of_mem_ofList {entries : List (κ × α)} (h : (k, v) ∈ ofList entries) :
    (k, v) ∈ entries := by
  have key : ∀ t : Table κ α, t.Sorted →
      (k, v) ∈ entries.foldl (fun t e => t.insert e.1 e.2) t → (k, v) ∈ entries ∨ (k, v) ∈ t := by
    clear h
    induction entries with
    | nil => exact fun _ _ h => .inr h
    | cons e entries ih =>
      intro t ht h
      rcases ih _ ht.insert h with h | h
      · exact .inl (List.mem_cons_of_mem _ h)
      · rcases (mem_insert ht).mp h with ⟨rfl, rfl⟩ | ⟨-, h⟩
        · exact .inl List.mem_cons_self
        · exact .inr h
  simpa using key [] List.Pairwise.nil h

/-- A table made of a list with distinct keys has the entries of the list. -/
theorem mem_ofList {entries : List (κ × α)} (hnodup : (entries.map (·.1)).Nodup) :
    (k, v) ∈ ofList entries ↔ (k, v) ∈ entries :=
  ⟨mem_of_mem_ofList, fun h => mem_of_get?_eq_some (get?_ofList hnodup h)⟩

/-- A table made of entries with distinct keys holds these entries in another order. -/
theorem ofList_perm {entries : List (κ × α)} (hnodup : (entries.map (·.1)).Nodup) :
    (ofList entries).Perm entries :=
  (List.perm_ext_iff_of_nodup (List.Nodup.of_map _ (sorted_ofList entries).keys_nodup)
    (List.Nodup.of_map _ hnodup)).mpr fun _ => mem_ofList hnodup

end Insert

/-! ## The set of the elements of a list -/

section SortedSet

variable [TransOrd κ] [LawfulEqOrd κ]

/-- A sorted set is increasing. -/
theorem increasing_sortedSet (xs : List κ) : Increasing (sortedSet xs) := by
  have h := sorted_insertAll (xs.map fun x => (x, ())) (t := []) List.Pairwise.nil
  rw [List.foldl_map] at h
  exact List.pairwise_map.mpr h

@[simp]
theorem mem_sortedSet {x : κ} {xs : List κ} : x ∈ sortedSet xs ↔ x ∈ xs := by
  have key : ∀ t : Table κ Unit, t.Sorted →
      (x ∈ (xs.foldl (fun t x => t.insert x ()) t).keys ↔ x ∈ xs ∨ x ∈ t.keys) := by
    induction xs with
    | nil => simp
    | cons y xs ih =>
      intro t ht
      rw [List.foldl_cons, ih _ ht.insert, mem_keys, mem_keys]
      simp only [mem_insert ht, List.mem_cons]
      by_cases hxy : x = y <;> simp [hxy]
  simpa [sortedSet, keys] using key [] List.Pairwise.nil

/-- Sorted sets are equal exactly when their lists have the same elements. -/
theorem sortedSet_eq_iff {xs ys : List κ} : sortedSet xs = sortedSet ys ↔ ∀ x, x ∈ xs ↔ x ∈ ys := by
  constructor
  · intro h x
    rw [← mem_sortedSet, h, mem_sortedSet]
  · intro h
    exact (increasing_sortedSet xs).ext (increasing_sortedSet ys) fun x => by
      rw [mem_sortedSet, mem_sortedSet, h]

end SortedSet

/-! ## Sums over the entries -/

section Total

variable {M : Type} [AddCommMonoid M]

omit [Ord κ] in
/-- The sum of a weight over all entries. -/
def total (w : κ → α → M) (t : Table κ α) : M :=
  (t.map fun e => w e.1 e.2).sum

omit [Ord κ] in
@[simp]
theorem total_nil (w : κ → α → M) : total w ([] : Table κ α) = 0 := rfl

omit [Ord κ] in
@[simp]
theorem total_cons (w : κ → α → M) (e : κ × α) (t : Table κ α) :
    total w (e :: t : List (κ × α)) = w e.1 e.2 + total w t := by
  simp [total]

omit [Ord κ] in
/-- A total depends on the weights of the entries only. -/
theorem total_congr {w w' : κ → α → M} {t : Table κ α} (h : ∀ e ∈ t, w e.1 e.2 = w' e.1 e.2) :
    total w t = total w' t :=
  congrArg List.sum (List.map_congr_left h)

omit [Ord κ] in
/-- Weights that vanish on the entries give the total zero. -/
theorem total_eq_zero {w : κ → α → M} {t : Table κ α} (h : ∀ e ∈ t, w e.1 e.2 = 0) :
    total w t = 0 :=
  List.sum_eq_zero fun _ hx => by
    obtain ⟨e, he, rfl⟩ := List.mem_map.mp hx
    exact h e he

/-- A sum to which a single key contributes. -/
theorem total_eq_single [TransOrd κ] [LawfulEqOrd κ] {w : κ → α → M} {t : Table κ α} {k : κ}
    {v : α} (hs : t.Sorted) (hmem : (k, v) ∈ t) (h : ∀ e ∈ t, e.1 ≠ k → w e.1 e.2 = 0) :
    total w t = w k v := by
  induction t with
  | nil => simp at hmem
  | cons e t ih =>
    obtain ⟨hlt, hs⟩ := sorted_cons.mp hs
    obtain ⟨he, ht⟩ := List.forall_mem_cons.mp h
    rcases List.mem_cons.mp hmem with rfl | hmem
    · rw [total_cons, total_eq_zero fun e he => ht e he ?_, add_zero]
      rintro heq
      have := hlt e he
      simp [heq] at this
    · rw [total_cons, ih hs hmem ht, he ?_, zero_add]
      rintro heq
      have := hlt _ hmem
      simp [heq] at this

omit [Ord κ] in
/-- Totals add in the weights. -/
theorem total_add (w w' : κ → α → M) (t : Table κ α) :
    total (fun k v => w k v + w' k v) t = total w t + total w' t := by
  induction t with
  | nil => simp
  | cons e t ih => simp only [total_cons, ih]; abel

/-- An alteration that adds `δ` to the contribution of its key adds `δ` to the sum. -/
theorem total_alter [LawfulEqOrd κ] {w : κ → α → M} {t : Table κ α} {k : κ}
    {f : Option α → Option α} {δ : M}
    (h : (f (t.get? k)).elim 0 (w k) = (t.get? k).elim 0 (w k) + δ) :
    total w (t.alter k f) = total w t + δ := by
  induction t with
  | nil =>
    cases hv : f none with
    | none => simpa [alter, get?, hv] using h
    | some v => simpa [alter, get?, hv] using h
  | cons e t ih =>
    obtain ⟨k₀, v₀⟩ := e
    cases hk : compare k k₀ with
    | lt =>
      simp only [get?, hk, Option.elim_none, zero_add] at h
      cases hv : f none with
      | none =>
        simp only [hv, Option.elim_none] at h
        simp [alter, hk, hv, ← h]
      | some v =>
        simp only [hv, Option.elim_some] at h
        simp [alter, hk, hv, h, add_comm]
    | eq =>
      obtain rfl := LawfulEqOrd.eq_of_compare hk
      simp only [get?, hk, Option.elim_some] at h
      cases hv : f (some v₀) with
      | none =>
        simp only [hv, Option.elim_none] at h
        rw [alter, hk]
        simp only [hv, total_cons]
        rw [add_right_comm, ← h, zero_add]
      | some v =>
        simp only [hv, Option.elim_some] at h
        rw [alter, hk]
        simp only [hv, total_cons, h]
        rw [add_right_comm]
    | gt =>
      simp only [get?, hk] at h
      simp only [alter, hk, total_cons, ih h, add_assoc]

/-- Inserting at a new key adds the weight of the entry. -/
theorem total_insert_of_notMem [TransOrd κ] [LawfulEqOrd κ] {w : κ → α → M} {t : Table κ α} {k : κ}
    {v : α} (hs : t.Sorted) (hk : k ∉ t.keys) : total w (t.insert k v) = total w t + w k v := by
  refine total_alter ?_
  rw [(get?_eq_none_iff hs).mpr hk]
  simp

/-- Entries with distinct keys all count in the table that is made of them. -/
theorem total_ofList [TransOrd κ] [LawfulEqOrd κ] {w : κ → α → M} {entries : List (κ × α)}
    (hnodup : (entries.map (·.1)).Nodup) : total w (ofList entries) = total w entries := by
  have key : ∀ (t : Table κ α), t.Sorted → (∀ e ∈ entries, e.1 ∉ t.keys) →
      total w (entries.foldl (fun t e => t.insert e.1 e.2) t) = total w t + total w entries := by
    induction entries with
    | nil => simp
    | cons e entries ih =>
      intro t ht hdisj
      obtain ⟨hnot, hnodup⟩ := List.nodup_cons.mp hnodup
      obtain ⟨he, hdisj⟩ := List.forall_mem_cons.mp hdisj
      rw [List.foldl_cons, ih hnodup _ ht.insert, total_insert_of_notMem ht he, total_cons, add_assoc]
      intro e' he' hmem
      obtain ⟨v, hv⟩ := mem_keys.mp hmem
      rcases (mem_insert ht).mp hv with ⟨heq, -⟩ | ⟨-, hv⟩
      · exact hnot (List.mem_map.mpr ⟨e', he', heq⟩)
      · exact hdisj e' he' (mem_keys.mpr ⟨v, hv⟩)
  simpa [ofList, keys] using key [] List.Pairwise.nil

end Total

end Table

end PseudoBoolean
