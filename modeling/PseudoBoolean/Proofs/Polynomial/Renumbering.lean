import Mathlib.Data.List.Perm.Subperm
import Mathlib.Data.List.Zip
import PseudoBoolean.Label
import PseudoBoolean.Polynomial.Evaluation
import PseudoBoolean.Proofs.Polynomial.WellFormed

/-!
# Replacing the numbering

The numbering of a polynomial can be replaced by hand. The pairs are first put into slots, one for each
number, which refuses a number that is out of range or taken. As many numbers as there are slots, all in
range and none repeated, leave no slot empty (`keys_slotsOf`), so the slots are the reverse mapping of the
new numbering (`reverseMapping_eq_slotsOf`). Then the variables are numbered in the order of the slots, which
refuses one that repeats. What is accepted is therefore exactly a bijection (`ofBijection_eq_ok_iff`), and the
comparison of the variables as sets, which does not look at repetitions, is enough in the end
(`Polynomial.setMapping_bijection`).
-/

namespace PseudoBoolean

namespace VariableIndex

variable {V : Type} {pairs l : List (V × ℕ)} {slots result : Table ℕ V} {n : ℕ}

/-! ## Slots -/

/-- Puts a variable in the slot of its number. -/
def fillSlot (n : ℕ) (slots : Table ℕ V) (e : V × ℕ) : Except Error (Table ℕ V) :=
  if n ≤ e.2 then .error (.malformed (.indexOutOfRange e.2 n))
  else if slots.contains e.2 then .error (.malformed (.indexRepeated e.2))
  else .ok (slots.insert e.2 e.1)

theorem fillSlots_eq (pairs : List (V × ℕ)) :
    fillSlots pairs = pairs.foldlM (fillSlot pairs.length) [] := rfl

/-- A slot that is in range and free is filled. -/
theorem fillSlot_eq_ok_iff (hs : slots.Sorted) {e : V × ℕ} :
    fillSlot n slots e = .ok result ↔
      e.2 < n ∧ e.2 ∉ slots.keys ∧ slots.insert e.2 e.1 = result := by
  rw [fillSlot, ← Table.contains_iff hs]
  by_cases hrange : n ≤ e.2
  · simp [hrange, Nat.not_lt.mpr hrange]
  · by_cases htaken : slots.contains e.2
    · simp [hrange, htaken]
    · simp [hrange, htaken, Nat.not_le.mp hrange]

/-- The slots are filled if all numbers are in range, free and different from each other. -/
theorem foldlM_fillSlot (hs : slots.Sorted) :
    l.foldlM (fillSlot n) slots = .ok result ↔
      (∀ e ∈ l, e.2 < n ∧ e.2 ∉ slots.keys) ∧ (l.map (·.2)).Nodup ∧
        l.foldl (fun t e => t.insert e.2 e.1) slots = result := by
  induction l generalizing slots with
  | nil => simp [pure, Except.pure]
  | cons e l ih =>
    have hstep : (e :: l).foldlM (fillSlot n) slots = .ok result ↔
        e.2 < n ∧ e.2 ∉ slots.keys ∧
          l.foldlM (fillSlot n) (slots.insert e.2 e.1) = .ok result := by
      rw [List.foldlM_cons, bind_eq_ok_iff]
      simp only [fillSlot_eq_ok_iff hs]
      grind
    rw [hstep, ih hs.insert, List.forall_mem_cons, List.map_cons, List.nodup_cons, List.foldl_cons]
    simp only [Table.mem_keys_insert hs, List.mem_map]
    grind

/-- The slots are filled exactly if every number is in range and none is repeated. -/
theorem fillSlots_eq_ok_iff :
    fillSlots pairs = .ok slots ↔
      (∀ e ∈ pairs, e.2 < pairs.length) ∧ (pairs.map (·.2)).Nodup ∧
        Table.ofList (pairs.map Prod.swap) = slots := by
  rw [fillSlots_eq, foldlM_fillSlot List.Pairwise.nil, Table.ofList, List.foldl_map]
  simp [Table.keys]

variable [Variable V] {index : VariableIndex V}

/-- Gives a variable that has no number the next one. -/
def numberSlot (index : VariableIndex V) (slot : ℕ × V) : Except Error (VariableIndex V) :=
  if index.labels.contains slot.2 then .error (.malformed (.labelRepeated (Variable.text slot.2)))
  else .ok ⟨index.labels ++ [slot.2]⟩

theorem ofBijection_eq (pairs : List (V × ℕ)) :
    ofBijection pairs = fillSlots pairs >>= fun slots => slots.foldlM numberSlot empty := rfl

/-- The variables in the slots are numbered if they are different from each other. -/
theorem foldlM_numberSlot {slots : List (ℕ × V)} {start : VariableIndex V} :
    slots.foldlM numberSlot start = .ok index ↔
      (∀ e ∈ slots, e.2 ∉ start.labels) ∧ (slots.map (·.2)).Nodup ∧
        start.labels ++ slots.map (·.2) = index.labels := by
  induction slots generalizing start with
  | nil =>
    cases start
    cases index
    simp [pure, Except.pure]
  | cons e slots ih =>
    rw [List.foldlM_cons, numberSlot]
    by_cases hnew : e.2 ∈ start.labels
    · rw [if_pos (by simpa using hnew)]
      exact iff_of_false nofun fun h => h.1 e List.mem_cons_self hnew
    · rw [if_neg (by simpa using hnew)]
      refine ih.trans ?_
      simp only [List.forall_mem_cons, List.map_cons, List.nodup_cons, List.mem_append, List.mem_singleton,
        List.append_assoc, List.singleton_append, List.mem_map]
      grind

/-! ## Bijections -/

omit [Variable V] in
/-- Numbers in range that do not repeat are all the numbers there are. -/
theorem perm_range_iff {numbers : List ℕ} :
    numbers.Perm (List.range numbers.length) ↔
      (∀ i ∈ numbers, i < numbers.length) ∧ numbers.Nodup := by
  constructor
  · exact fun h => ⟨fun i hi => List.mem_range.mp (h.mem_iff.mp hi), h.nodup_iff.mpr List.nodup_range⟩
  · rintro ⟨hrange, hnodup⟩
    have hsub : numbers.Subperm (List.range numbers.length) :=
      hnodup.subperm fun i hi => List.mem_range.mpr (hrange i hi)
    exact hsub.perm_of_length_le (by simp)

/-- The pairs give distinct variables the numbers `0, …, n - 1`. -/
structure IsBijection (pairs : List (V × ℕ)) : Prop where
  distinct : (pairs.map (·.1)).Nodup
  numbers : (pairs.map (·.2)).Perm (List.range pairs.length)

section Slots

omit [Variable V]

/-- The slots that a list of pairs with distinct numbers fills. -/
def slotsOf (pairs : List (V × ℕ)) : Table ℕ V :=
  Table.ofList (pairs.map Prod.swap)

/-- A slot has the variable that is mapped to its number. -/
theorem mem_slotsOf (h : (pairs.map (·.2)).Nodup) {v : V} {i : ℕ} :
    (i, v) ∈ slotsOf pairs ↔ (v, i) ∈ pairs := by
  rw [slotsOf, Table.mem_ofList (by rwa [List.map_map])]
  simp

theorem slotsOf_perm (h : (pairs.map (·.2)).Nodup) : (slotsOf pairs).Perm (pairs.map Prod.swap) :=
  Table.ofList_perm (by rwa [List.map_map])

/-- The slots have the variables of the pairs in another order. -/
theorem map_snd_slotsOf_perm (h : (pairs.map (·.2)).Nodup) :
    ((slotsOf pairs).map (·.2)).Perm (pairs.map (·.1)) := by
  have hperm := (slotsOf_perm h).map (·.2)
  rwa [List.map_map] at hperm

/-- If the numbers are those below `n`, no slot is left empty. -/
theorem keys_slotsOf (h : (pairs.map (·.2)).Perm (List.range pairs.length)) :
    (slotsOf pairs).keys = List.range pairs.length := by
  have hperm := (slotsOf_perm (h.nodup_iff.mpr List.nodup_range)).map (·.1)
  rw [List.map_map] at hperm
  have hincreasing : Increasing (slotsOf pairs).keys := List.pairwise_map.mpr (Table.sorted_ofList _)
  have hrange : Increasing (List.range pairs.length) :=
    List.pairwise_lt_range.imp fun hlt => Nat.compare_eq_lt.mpr hlt
  exact hincreasing.ext hrange fun i => (hperm.trans h).mem_iff

/-- Slots that are all filled are the numbers with the variables in the order of the numbers. -/
theorem reverseMapping_eq_slotsOf {index : VariableIndex V}
    (h : (pairs.map (·.2)).Perm (List.range pairs.length))
    (hindex : (slotsOf pairs).map (·.2) = index.labels) :
    index.reverseMapping = slotsOf pairs := by
  have hlength : index.labels.length = pairs.length := by
    rw [← hindex, List.length_map, ← List.length_map (f := (·.1)), ← Table.keys, keys_slotsOf h,
      List.length_range]
  calc index.reverseMapping = (index.labels.zip (List.range index.labels.length)).map Prod.swap := by
        rw [reverseMapping, List.zipIdx_eq_zip_range', ← List.range_eq_range']
        rfl
    _ = (List.range pairs.length).zip index.labels := by rw [List.zip_swap, hlength]
    _ = (slotsOf pairs).keys.zip ((slotsOf pairs).map (·.2)) := by rw [keys_slotsOf h, hindex]
    _ = slotsOf pairs := (List.zip_of_prod rfl rfl).symm

end Slots

/-- A bijection is taken as it is, and nothing else is. -/
theorem ofBijection_eq_ok_iff :
    ofBijection pairs = .ok index ↔
      IsBijection pairs ∧ (slotsOf pairs).map (·.2) = index.labels := by
  have hnumbers : (∀ e ∈ pairs, e.2 < pairs.length) ∧ (pairs.map (·.2)).Nodup ↔
      (pairs.map (·.2)).Perm (List.range pairs.length) := by
    rw [← List.length_map (f := (·.2)), perm_range_iff, List.forall_mem_map]
  rw [ofBijection_eq, bind_eq_ok_iff]
  simp only [fillSlots_eq_ok_iff, foldlM_numberSlot]
  constructor
  · rintro ⟨_, ⟨hrange, hnodup, rfl⟩, -, hdistinct, hlabels⟩
    exact ⟨⟨(map_snd_slotsOf_perm hnodup).nodup_iff.mp hdistinct, hnumbers.mp ⟨hrange, hnodup⟩⟩,
      hlabels⟩
  · rintro ⟨h, hlabels⟩
    obtain ⟨hrange, hnodup⟩ := hnumbers.mpr h.numbers
    exact ⟨_, ⟨hrange, hnodup, rfl⟩, fun _ _ => List.not_mem_nil,
      (map_snd_slotsOf_perm hnodup).nodup_iff.mpr h.distinct, hlabels⟩

/-- Pairs that are no bijection are malformed. -/
theorem malformed_of_ofBijection {e : Error} (h : ofBijection pairs = .error e) :
    ∃ cause, e = .malformed cause := by
  rw [ofBijection_eq] at h
  cases hslots : fillSlots pairs with
  | error e' =>
    rw [hslots] at h
    obtain rfl := Except.error.inj h
    obtain ⟨slots, pair, hpair⟩ := Polynomial.exists_step_of_foldlM_error hslots
    dsimp only at hpair
    split at hpair
    · exact ⟨_, (Except.error.inj hpair).symm⟩
    · split at hpair
      · exact ⟨_, (Except.error.inj hpair).symm⟩
      · cases hpair
  | ok slots =>
    rw [hslots] at h
    obtain ⟨index, slot, hslot⟩ := Polynomial.exists_step_of_foldlM_error h
    rw [numberSlot] at hslot
    split at hslot
    · exact ⟨_, (Except.error.inj hslot).symm⟩
    · cases hslot

/-- A numbering that is given by its pairs has them as its mapping. -/
theorem mapping_ofBijection (h : ofBijection pairs = .ok index) :
    (index.mapping.Sorted ∧ ∀ v i, (v, i) ∈ index.mapping ↔ (v, i) ∈ pairs) ∧
      index.reverseMapping.Sorted ∧ ∀ i v, (i, v) ∈ index.reverseMapping ↔ (v, i) ∈ index.mapping := by
  obtain ⟨hbijection, hlabels⟩ := ofBijection_eq_ok_iff.mp h
  have hnodup : (pairs.map (·.2)).Nodup := hbijection.numbers.nodup_iff.mpr List.nodup_range
  have hreverse := reverseMapping_eq_slotsOf hbijection.numbers hlabels
  have hdistinct : (index.labels.zipIdx.map (·.1)).Nodup := by
    rw [List.zipIdx_map_fst, ← hlabels]
    exact (map_snd_slotsOf_perm hnodup).nodup_iff.mpr hbijection.distinct
  have hinverse : ∀ i v, (i, v) ∈ index.reverseMapping ↔ (v, i) ∈ index.mapping := fun i v => by
    rw [mapping, Table.mem_ofList hdistinct, reverseMapping, List.mem_map]
    simp
  refine ⟨⟨Table.sorted_ofList _, fun v i => ?_⟩, ?_, hinverse⟩
  · rw [← hinverse, hreverse, mem_slotsOf hnodup]
  · rw [hreverse]
    exact Table.sorted_ofList _

end VariableIndex

namespace Polynomial

open VariableIndex

variable {d : Domain} {V : Type} [Variable V] {p : Polynomial d V} {pairs : List (V × ℕ)}

/-- A bijection of the same variables is accepted. -/
theorem setMapping_accepts_iff :
    (p.setMapping pairs).2 = .ok () ↔
      ∃ index, ofBijection pairs = .ok index ∧ ∀ v, v ∈ p.index.labels ↔ v ∈ index.labels := by
  rw [setMapping]
  cases ofBijection pairs with
  | error e =>
    refine iff_of_false (fun h => ?_) ?_
    · cases h
    · rintro ⟨_, h, -⟩
      cases h
  | ok index =>
    simp only [Except.ok.injEq, exists_eq_left', ← Table.sortedSet_eq_iff]
    by_cases hsame : sortedSet p.index.labels = sortedSet index.labels
    · rw [if_pos (beq_iff_eq.mpr hsame)]
      exact iff_of_true rfl hsame
    · rw [if_neg (beq_iff_eq.not.mpr hsame)]
      refine iff_of_false (fun h => ?_) hsame
      cases h

/-- What is accepted is a bijection of the variables of the polynomial. -/
theorem setMapping_accepts_iff_isBijection :
    (p.setMapping pairs).2 = .ok () ↔
      IsBijection pairs ∧ ∀ v, v ∈ pairs.map (·.1) ↔ v ∈ p.index.labels := by
  have hlabels : IsBijection pairs → ∀ v, v ∈ (slotsOf pairs).map (·.2) ↔ v ∈ pairs.map (·.1) :=
    fun h v => (map_snd_slotsOf_perm (h.numbers.nodup_iff.mpr List.nodup_range)).mem_iff
  simp only [setMapping_accepts_iff, ofBijection_eq_ok_iff]
  constructor
  · rintro ⟨index, ⟨h, hindex⟩, hsame⟩
    exact ⟨h, fun v => by rw [hsame, ← hindex, hlabels h]⟩
  · rintro ⟨h, hsame⟩
    exact ⟨⟨_⟩, ⟨h, rfl⟩, fun v => by rw [hlabels h, hsame]⟩

/-- A mapping is refused because it does not have the required form. -/
theorem malformed_of_setMapping {e : Error} (h : (p.setMapping pairs).2 = .error e) :
    ∃ cause, e = .malformed cause := by
  rw [setMapping] at h
  cases hindex : ofBijection pairs with
  | error e' =>
    rw [hindex] at h
    obtain rfl := Except.error.inj h
    exact malformed_of_ofBijection hindex
  | ok index =>
    simp only [hindex] at h
    split at h
    · cases h
    · exact ⟨_, (Except.error.inj h).symm⟩

/-- A numbering is replaced exactly by a bijection of the variables that have numbers onto
`0, …, n - 1`, which is the mapping from then on, with its inverse as the reverse mapping. Nothing else of the
polynomial changes, and nothing at all if the pairs are refused. -/
theorem setMapping_bijection (p : Polynomial d V) (pairs : List (V × ℕ)) :
    ((p.setMapping pairs).2 = .ok () ↔
      (pairs.map (·.1)).Nodup ∧ (∀ v, v ∈ pairs.map (·.1) ↔ v ∈ p.index.labels) ∧
        (pairs.map (·.2)).Perm (List.range pairs.length)) ∧
      (∀ q, p.setMapping pairs = (q, .ok ()) →
        (q.index.mapping.Sorted ∧ ∀ v i, (v, i) ∈ q.index.mapping ↔ (v, i) ∈ pairs) ∧
        (q.index.reverseMapping.Sorted ∧
          ∀ i v, (i, v) ∈ q.index.reverseMapping ↔ (v, i) ∈ q.index.mapping) ∧
        q.terms = p.terms ∧ q.ancillas = p.ancillas ∧ ∀ a, q.value a = p.value a) ∧
      ∀ q e, p.setMapping pairs = (q, .error e) → (∃ cause, e = .malformed cause) ∧ q = p := by
  refine ⟨?_, fun q hq => ?_, fun q e he => ?_⟩
  · rw [setMapping_accepts_iff_isBijection]
    exact ⟨fun ⟨h, hsame⟩ => ⟨h.distinct, hsame, h.numbers⟩,
      fun ⟨hdistinct, hsame, hnumbers⟩ => ⟨⟨hdistinct, hnumbers⟩, hsame⟩⟩
  · rcases setMapping_cases p pairs with ⟨e, h⟩ | ⟨index, hindex, -, h⟩
    · cases (Prod.mk.inj (h.symm.trans hq)).2
    · obtain ⟨rfl, -⟩ := Prod.mk.inj (h.symm.trans hq)
      obtain ⟨hmapping, hreverse⟩ := mapping_ofBijection hindex
      exact ⟨hmapping, hreverse, rfl, rfl, fun _ => rfl⟩
  · refine ⟨malformed_of_setMapping (congrArg Prod.snd he), ?_⟩
    rcases setMapping_cases p pairs with ⟨e', h⟩ | ⟨index, -, -, h⟩
    · exact (Prod.mk.inj (he.symm.trans h)).1
    · cases (Prod.mk.inj (he.symm.trans h)).2

/-- Two variables, of which `x` was numbered first. -/
def crossed : Polynomial .binary Label :=
  ofTerms [([.name "y", .name "x"], 1), ([.name "y"], 2)]

/-- Their numbers can be exchanged. A variable that is given two numbers is refused when all slots are
filled, and so is a pair that leaves a variable without a number, which has no effect. -/
theorem setMapping_bijection_crossed :
    ∃ q, crossed.setMapping [(.name "x", 1), (.name "y", 0)] = (q, .ok ()) ∧
      q.index.labels = [.name "y", .name "x"] ∧ (∀ a, q.value a = crossed.value a) ∧
      (crossed.setMapping [(.name "x", 0), (.name "x", 1)]).2 ≠ .ok () ∧
      ∃ e, crossed.setMapping [(.name "x", 0)] = (crossed, .error e) := by
  obtain ⟨haccepted, hkept, -⟩ := setMapping_bijection crossed [(.name "x", 1), (.name "y", 0)]
  have hlabels : crossed.index.labels = [.name "x", .name "y"] := by decide +kernel
  have hok := haccepted.mpr ⟨by decide, by simp [hlabels], by decide⟩
  have hswapped : (crossed.setMapping [(.name "x", 1), (.name "y", 0)]).1.index.labels =
      [.name "y", .name "x"] := by decide +kernel
  obtain ⟨hiff, -, hrefused⟩ := setMapping_bijection crossed [(.name "x", 0)]
  have hmissing : (crossed.setMapping [(.name "x", 0)]).2 ≠ .ok () := fun h => by
    have hcovers := (hiff.mp h).2.1 (.name "y")
    rw [hlabels] at hcovers
    exact absurd hcovers (by decide)
  refine ⟨_, Prod.ext rfl hok, hswapped, (hkept _ (Prod.ext rfl hok)).2.2.2.2, fun h => ?_, ?_⟩
  · exact absurd ((setMapping_bijection crossed _).1.mp h).1 (by decide)
  · cases houtcome : (crossed.setMapping [(.name "x", 0)]).2 with
    | ok _ => exact absurd houtcome hmissing
    | error e =>
      obtain ⟨-, hsame⟩ := hrefused _ e (Prod.ext rfl houtcome)
      exact ⟨e, Prod.ext hsame houtcome⟩

end Polynomial

end PseudoBoolean
