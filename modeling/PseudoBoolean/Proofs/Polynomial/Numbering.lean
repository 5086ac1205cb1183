import PseudoBoolean.Polynomial.CanonicalForm
import PseudoBoolean.Proofs.Polynomial.Conversion

/-!
# Numbered polynomials

`Polynomial.toIndexed` puts in the place of every variable its number. Distinct variables have distinct
numbers, so distinct terms stay distinct and keep their coefficients: the numbered polynomial is the
same function of the values of its variables (`eval_toIndexed`).
-/

namespace PseudoBoolean

open Std

namespace VariableIndex

variable {V : Type} [Variable V] {index : VariableIndex V} {v w : V} {i : ℕ}

/-- The number of a variable that has one. -/
def position (index : VariableIndex V) (v : V) : ℕ :=
  index.labels.idxOf v

/-- The number of a variable is below the number of variables. -/
theorem position_lt (h : v ∈ index.labels) : index.position v < index.size :=
  List.idxOf_lt_length_of_mem h

/-- The variable with the number of a variable is that variable. -/
theorem label?_position (h : v ∈ index.labels) : index.label? (index.position v) = some v := by
  rw [label?, List.getElem?_eq_getElem (position_lt h)]
  exact congrArg some (List.getElem_idxOf _)

/-- No two variables have the same number. -/
theorem position_injective (hv : v ∈ index.labels) (hw : w ∈ index.labels)
    (h : index.position v = index.position w) : v = w := by
  have := label?_position hv
  rw [h, label?_position hw] at this
  exact (Option.some_inj.mp this).symm

/-- The look-up of a variable finds its number. -/
theorem indexOf?_eq (h : v ∈ index.labels) : index.indexOf? v = some (index.position v) := by
  rw [indexOf?, List.idxOf?_eq_some_iff]
  refine ⟨position_lt h, List.getElem_idxOf _, fun j hj heq => ?_⟩
  have hne := List.not_of_lt_findIdx hj
  simp [heq] at hne

/-- The identity numbers as many variables as it is asked for. -/
@[simp]
theorem size_identity (n : ℕ) : (identity n).size = n :=
  List.length_range

/-- The variable with a given number has that number, if no variable is listed twice. -/
theorem position_of_label? (hnodup : index.labels.Nodup) (h : index.label? i = some v) :
    v ∈ index.labels ∧ index.position v = i := by
  obtain ⟨hi, rfl⟩ := List.getElem?_eq_some_iff.mp h
  exact ⟨List.getElem_mem hi, hnodup.idxOf_getElem i hi⟩

/-- A variable and its number determine each other. -/
theorem label?_eq_some_iff (hnodup : index.labels.Nodup) :
    index.label? i = some v ↔ index.indexOf? v = some i := by
  constructor
  · intro hlabel
    obtain ⟨hv, rfl⟩ := position_of_label? hnodup hlabel
    exact indexOf?_eq hv
  · intro hindex
    obtain ⟨hi, hv, -⟩ := List.idxOf?_eq_some_iff.mp hindex
    exact List.getElem?_eq_some_iff.mpr ⟨hi, hv⟩

end VariableIndex

namespace Polynomial

variable {d : Domain} {V : Type} [Variable V] {K : Coefficient → Prop} [Coefficient.Kind K]
  {p : Polynomial d V} {ρ : String → ℚ} {s t : Term V} {v : V} {i : ℕ}

/-! ## The numbered term -/

/-- The term with its variables replaced by their numbers. -/
def numberedTerm (d : Domain) (index : VariableIndex V) (t : Term V) : Term ℕ :=
  Term.normalize d (t.filterMap index.indexOf?)

section NumberedTerm

variable {index : VariableIndex V}

/-- All variables of a term that is numbered have a number, so none of them is dropped. -/
theorem filterMap_indexOf? (h : ∀ v ∈ t, v ∈ index.labels) :
    t.filterMap index.indexOf? = t.map index.position := by
  rw [← List.filterMap_eq_map]
  exact List.filterMap_congr fun v hv => VariableIndex.indexOf?_eq (h v hv)

/-- The numbered term consists of the numbers of the variables, in increasing order. -/
theorem numberedTerm_perm (d : Domain) (hinc : Increasing t) (h : ∀ v ∈ t, v ∈ index.labels) :
    (numberedTerm d index t).Perm (t.map index.position) := by
  rw [numberedTerm, filterMap_indexOf? h]
  refine Term.normalize_perm d (List.Nodup.map_on (fun v hv w hw heq => ?_) hinc.nodup)
  exact VariableIndex.position_injective (h v hv) (h w hw) heq

/-- Distinct terms stay distinct when they are numbered. -/
theorem numberedTerm_injective (hs : Increasing s) (ht : Increasing t)
    (hsi : ∀ v ∈ s, v ∈ index.labels) (hti : ∀ v ∈ t, v ∈ index.labels)
    (h : numberedTerm d index s = numberedTerm d index t) : s = t := by
  have hsub : ∀ {s t : Term V}, Increasing s → Increasing t → (∀ v ∈ s, v ∈ index.labels) →
      (∀ v ∈ t, v ∈ index.labels) → numberedTerm d index s = numberedTerm d index t →
      ∀ v ∈ s, v ∈ t := by
    intro s t hs ht hsi hti h v hv
    have hmem : index.position v ∈ numberedTerm d index s :=
      (numberedTerm_perm d hs hsi).mem_iff.mpr (List.mem_map_of_mem hv)
    rw [h] at hmem
    obtain ⟨w, hw, heq⟩ := List.mem_map.mp ((numberedTerm_perm d ht hti).mem_iff.mp hmem)
    rwa [← VariableIndex.position_injective (hti w hw) (hsi v hv) heq]
  exact hs.ext ht fun v =>
    ⟨hsub hs ht hsi hti h v, hsub ht hs hti hsi h.symm v⟩

end NumberedTerm

/-! ## The numbered polynomial -/

/-- The terms with their variables replaced by numbers. -/
def numberedTerms (p : Polynomial d V) : Table (Term ℕ) Coefficient :=
  Table.ofList (p.terms.map fun t => (numberedTerm d p.index t.1, t.2))

/-- The numbered polynomial is put together from the numbered terms, the identity and the renamed records.
-/
theorem toIndexed_eq (p : Polynomial d V) :
    p.toIndexed = ofParts p.numberedTerms (VariableIndex.identity p.index.size)
      (p.ancillas.relabel p.index.indexOf?) := by
  rw [numberedTerms, Table.ofList, List.foldl_map]
  rfl

omit [Coefficient.Kind K] in
/-- No numbered term comes up twice, so no coefficient is lost. -/
theorem nodup_numberedTerms (hp : p.WellFormed K) :
    ((p.terms.map fun t => (numberedTerm d p.index t.1, t.2)).map (·.1)).Nodup := by
  rw [List.map_map]
  have hnodup : p.terms.Pairwise fun s t => s.1 ≠ t.1 :=
    List.pairwise_map.mp hp.terms.sorted.keys_nodup
  refine List.pairwise_map.mpr (hnodup.imp_of_mem fun {s t} hs ht hne heq => hne ?_)
  exact numberedTerm_injective (hp.terms.entries s hs).increasing (hp.terms.entries t ht).increasing
    (hp.indexed s hs) (hp.indexed t ht) heq

omit [Coefficient.Kind K] in
/-- The numbered terms make a table as a polynomial has it. -/
theorem WellFormed.numberedTerms (hp : p.WellFormed K) : GoodTerms K p.numberedTerms := by
  refine ⟨Table.sorted_ofList _, fun e he => ?_⟩
  obtain ⟨t, ht, heq⟩ := List.mem_map.mp (Table.mem_of_mem_ofList he)
  obtain rfl : _ = e := heq
  have hgood := hp.terms.entries t ht
  exact ⟨Term.increasing_normalize d _, hgood.kind, hgood.nonzero⟩

/-- The identity lists no number twice. -/
theorem nodup_labels_identity (n : ℕ) : (VariableIndex.identity n).labels.Nodup :=
  List.nodup_range

/-- A well-formed polynomial is numbered to a well-formed one, with coefficients of the same kind. -/
theorem WellFormed.toIndexed (hp : p.WellFormed K) : p.toIndexed.WellFormed K := by
  rw [toIndexed_eq]
  exact WellFormed.ofParts hp.numberedTerms (nodup_labels_identity _)

/-- The terms of the numbered polynomial are the numbered terms. -/
theorem terms_toIndexed (hp : p.WellFormed K) : p.toIndexed.terms = p.numberedTerms := by
  rw [toIndexed_eq, terms_ofParts hp.numberedTerms (nodup_labels_identity _)]

/-- Each entry comes from one of the old entries, with the same coefficient. -/
theorem mem_terms_toIndexed (hp : p.WellFormed K) {e : Term ℕ × Coefficient} :
    e ∈ p.toIndexed.terms ↔ ∃ t ∈ p.terms, e = (numberedTerm d p.index t.1, t.2) := by
  rw [terms_toIndexed hp]
  constructor
  · intro h
    obtain ⟨t, ht, heq⟩ := List.mem_map.mp (Table.mem_of_mem_ofList h)
    obtain rfl : _ = e := heq
    exact ⟨t, ht, rfl⟩
  · rintro ⟨t, ht, rfl⟩
    exact Table.mem_of_get?_eq_some
      (Table.get?_ofList (nodup_numberedTerms hp) (List.mem_map_of_mem ht))

/-- The value of the numbered polynomial is that of the old one where every variable has the value
of its number. -/
theorem eval_toIndexed (hp : p.WellFormed K) (x : ℕ → ℚ) :
    p.toIndexed.eval ρ x = p.eval ρ fun v => x (p.index.position v) := by
  rw [Polynomial.eval, terms_toIndexed hp, weighted, Polynomial.numberedTerms,
    Table.total_ofList (nodup_numberedTerms hp), Table.total, List.map_map]
  refine congrArg List.sum (List.map_congr_left fun t ht => ?_)
  have hperm := numberedTerm_perm d (hp.terms.entries t ht).increasing (hp.indexed t ht)
  simp only [Function.comp]
  rw [Term.eval_perm hperm, Term.eval, List.map_map]
  rfl

/-- The variables that occur afterwards are the numbers of those that occurred before. -/
theorem mem_vars_toIndexed (hp : p.WellFormed K) :
    i ∈ p.toIndexed.vars ↔ ∃ v ∈ p.vars, p.index.position v = i := by
  have hterm : ∀ t ∈ p.terms, i ∈ numberedTerm d p.index t.1 ↔
      ∃ v ∈ t.1, p.index.position v = i := fun t ht => by
    rw [(numberedTerm_perm d (hp.terms.entries t ht).increasing (hp.indexed t ht)).mem_iff,
      List.mem_map]
  constructor
  · intro h
    obtain ⟨e, he, hi⟩ := mem_vars.mp h
    obtain ⟨t, ht, rfl⟩ := (mem_terms_toIndexed hp).mp he
    obtain ⟨v, hv, heq⟩ := (hterm t ht).mp hi
    exact ⟨v, mem_vars.mpr ⟨t, ht, hv⟩, heq⟩
  · rintro ⟨v, hv, heq⟩
    obtain ⟨t, ht, hv⟩ := mem_vars.mp hv
    exact mem_vars.mpr ⟨_, (mem_terms_toIndexed hp).mpr ⟨t, ht, rfl⟩, (hterm t ht).mpr ⟨v, hv, heq⟩⟩

/-- Every number stands for itself in the numbered polynomial. -/
theorem index_toIndexed (hp : p.WellFormed K) :
    p.toIndexed.index = VariableIndex.identity p.index.size := by
  rw [toIndexed_eq]
  refine index_ofParts fun e he i hi => ?_
  rw [← terms_toIndexed hp] at he
  obtain ⟨v, hv, rfl⟩ := (mem_vars_toIndexed hp).mp (mem_vars.mpr ⟨e, he, hi⟩)
  exact List.mem_range.mpr (VariableIndex.position_lt (hp.mem_labels hv))

end Polynomial

end PseudoBoolean
