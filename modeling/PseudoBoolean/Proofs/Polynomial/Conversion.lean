import Mathlib.Data.Set.Finite.List
import Mathlib.Data.Set.Finite.Lattice
import PseudoBoolean.Proofs.Polynomial.WellFormed
import PseudoBoolean.Quadratic

/-!
# Change of domain keeps values and variables

The converted polynomial has at a point of the new domain the value of the old one at the corresponding
point (`eval_toDomain`). A term that no other term contains keeps a coefficient other than zero, since no
other term contributes to it. So the variables that occur are the same (`mem_vars_toDomain`), although
contributions of different terms do cancel in general.
-/

namespace PseudoBoolean.Polynomial

open Std

variable {d e : Domain} {V : Type} [Variable V] {K : Coefficient → Prop} [Coefficient.Kind K]
  {p : Polynomial d V} {ρ : String → ℚ} {v : V}

/-! ## The table of the converted polynomial -/

/-- The terms into which the terms of a table expand, before equal ones are added up. -/
def expandedTerms (d : Domain) (terms : List (Term V × Coefficient)) :
    List (Term V × Coefficient) :=
  terms.flatMap fun t => t.1.subsets.map fun s =>
    (s, t.2 * .num (expansionFactor d t.1.length s.length))

omit [Variable V] in
/-- The sum of a weight over the subsets of a term, each with its factor. -/
def subsetWeight (d : Domain) (g : Term V → ℚ) (t : Term V) : ℚ :=
  (t.subsets.map fun s =>
    d.substitution.1 ^ (t.length - s.length) * d.substitution.2 ^ s.length * g s).sum

/-- The terms are expanded one after the other, as a list of expanded terms is added up. -/
theorem foldl_expandTerm (terms : List (Term V × Coefficient)) :
    terms.foldl (fun r t => expandTerm d r t.1 t.2) [] =
      (expandedTerms d terms).foldl (fun r t => addCoefficient r t.1 t.2) [] := by
  rw [expandedTerms, List.foldl_flatMap]
  simp only [List.foldl_map]
  rfl

/-- Expanded terms can be added. -/
theorem addable_expandedTerms {terms : List (Term V × Coefficient)} (h : Addable K terms) :
    Addable K (expandedTerms d terms) := by
  intro e he
  obtain ⟨t, ht, he⟩ := List.mem_flatMap.mp he
  obtain ⟨s, hs, rfl⟩ := List.mem_map.mp he
  exact ⟨(h t ht).1.sublist (Term.mem_subsets.mp hs),
    Coefficient.Closed.mul (h t ht).2 (Coefficient.Closed.exact _)⟩

/-- An expanded term has a share in the weighted sum for each subset of its variables. -/
theorem weighted_expandedTerms {terms : List (Term V × Coefficient)} (h : Addable K terms)
    (g : Term V → ℚ) :
    weighted ρ g (expandedTerms d terms) = weighted ρ (subsetWeight d g) terms := by
  rw [expandedTerms]
  induction terms with
  | nil => rfl
  | cons t terms ih =>
    obtain ⟨ht, hterms⟩ := List.forall_mem_cons.mp h
    rw [List.flatMap_cons, weighted_append, ih hterms, weighted_cons]
    congr 1
    rw [weighted, Table.total, List.map_map, subsetWeight, ← List.sum_map_mul_left]
    refine congrArg List.sum (List.map_congr_left fun s _ => ?_)
    simp only [Function.comp]
    rw [expansionFactor,
      Coefficient.eval_mul (Coefficient.Kind.normal ht.2) (Coefficient.normal_exact _),
      Coefficient.eval_num, Number.rat_exact]
    ring

/-- The terms of the converted polynomial before they become one. -/
def convertedTerms (e : Domain) (p : Polynomial d V) : Table (Term V) Coefficient :=
  if e = d then p.terms else p.terms.foldl (fun terms t => expandTerm d terms t.1 t.2) []

/-- The weight of a term of the old domain that has the weights `g` in the new one. -/
def convertedWeight (d e : Domain) (g : Term V → ℚ) : Term V → ℚ :=
  if e = d then g else subsetWeight d g

/-- The converted terms make a table as a polynomial has it. -/
theorem WellFormed.convertedTerms (hp : p.WellFormed K) : GoodTerms K (p.convertedTerms e) := by
  rw [Polynomial.convertedTerms]
  split
  · exact hp.terms
  · rw [foldl_expandTerm]
    exact (addAll .nil (addable_expandedTerms hp.terms.addable)).1

/-! ## Values -/

/-- A change of the domain keeps well-formedness. -/
theorem WellFormed.toDomain (hp : p.WellFormed K) (e : Domain) : (p.toDomain e).WellFormed K :=
  WellFormed.ofParts hp.convertedTerms hp.distinct

/-- The terms in the other domain are the converted ones. -/
theorem terms_toDomain (hp : p.WellFormed K) : (p.toDomain e).terms = p.convertedTerms e :=
  terms_ofParts hp.convertedTerms hp.distinct

/-- A weighted sum in the other domain is one in the old domain, with other weights. -/
theorem weighted_toDomain (hp : p.WellFormed K) (g : Term V → ℚ) :
    weighted ρ g (p.toDomain e).terms = weighted ρ (convertedWeight d e g) p.terms := by
  rw [terms_toDomain hp, convertedTerms, convertedWeight]
  split
  · rfl
  · rw [foldl_expandTerm, (addAll .nil (addable_expandedTerms hp.terms.addable)).2,
      weighted_expandedTerms hp.terms.addable, weighted_nil, zero_add]

/-- The value at a point is that of the old polynomial at the corresponding point. -/
theorem eval_toDomain (hp : p.WellFormed K) (w : V → ℚ) :
    (p.toDomain e).eval ρ w = p.eval ρ fun v => d.carry e (w v) := by
  rw [Polynomial.eval, weighted_toDomain hp, convertedWeight]
  split
  · rename_i h
    subst h
    simp [Polynomial.eval]
  · rename_i h
    refine weighted_congr fun t _ => ?_
    simp only [subsetWeight, Domain.carry, if_neg h]
    exact Term.sum_subsets _ _ w t.1

/-! ## Terms and variables -/

/-- Every converted term is part of an old one. -/
theorem exists_sublist_of_mem_toDomain (hp : p.WellFormed K) {s : Term V × Coefficient}
    (h : s ∈ (p.toDomain e).terms) : ∃ t ∈ p.terms, s.1.Sublist t.1 := by
  rw [terms_toDomain hp, convertedTerms] at h
  split at h
  · exact ⟨s, h, List.Sublist.refl _⟩
  · -- adding up leaves no other terms than those of the expansion
    have key : ∀ (l : List (Term V × Coefficient)) (r : Table (Term V) Coefficient),
        ∀ s ∈ l.foldl (fun r t => addCoefficient r t.1 t.2) r,
          (∃ t ∈ l, t.1 = s.1) ∨ ∃ t ∈ r, t.1 = s.1 := by
      intro l
      induction l with
      | nil => exact fun r s hs => .inr ⟨s, hs, rfl⟩
      | cons t l ih =>
        intro r s hs
        rcases ih _ s hs with ⟨t', ht', heq⟩ | ⟨t', ht', heq⟩
        · exact .inl ⟨t', List.mem_cons_of_mem _ ht', heq⟩
        · have hr : ∀ s ∈ addCoefficient r t.1 t.2, t.1 = s.1 ∨ ∃ t' ∈ r, t'.1 = s.1 :=
            Table.forall_mem_alter (fun s hs => .inr ⟨s, hs, rfl⟩) fun _ _ => .inl rfl
          rcases hr t' ht' with h | ⟨t'', ht'', h⟩
          · exact .inl ⟨t, List.mem_cons_self, h.trans heq⟩
          · exact .inr ⟨t'', ht'', h.trans heq⟩
    rw [foldl_expandTerm] at h
    rcases key _ _ s h with ⟨s', hs', heq⟩ | ⟨_, h, _⟩
    · obtain ⟨t, ht, hs'⟩ := List.mem_flatMap.mp hs'
      obtain ⟨s'', hs'', rfl⟩ := List.mem_map.mp hs'
      exact ⟨t, ht, heq ▸ Term.mem_subsets.mp hs''⟩
    · simp at h

omit [Variable V] in
/-- The degree bounds the number of variables in every term. -/
theorem degree_le_iff {p : Polynomial d V} {n : ℕ} :
    p.degree ≤ n ↔ ∀ t ∈ p.terms, t.1.length ≤ n := by
  have key : ∀ (l : List (Term V × Coefficient)) (m : ℕ),
      l.foldl (fun n t => max n t.1.length) m ≤ n ↔ m ≤ n ∧ ∀ t ∈ l, t.1.length ≤ n := by
    intro l
    induction l with
    | nil => simp
    | cons t l ih =>
      intro m
      rw [List.foldl_cons, ih, Nat.max_le, List.forall_mem_cons, and_assoc]
  simpa [degree] using key p.terms 0

/-- A change of the domain does not raise the degree. -/
theorem degree_toDomain_le {n : ℕ} (hp : p.WellFormed K) (h : p.degree ≤ n) :
    (p.toDomain e).degree ≤ n := by
  refine degree_le_iff.mpr fun s hs => ?_
  obtain ⟨t, ht, hsub⟩ := exists_sublist_of_mem_toDomain hp hs
  exact hsub.length_le.trans (degree_le_iff.mp h t ht)

/-- A polynomial within the bound is a quadratic form. -/
theorem exists_ofPolynomial (h : p.degree ≤ quadraticDegree) :
    ∃ quadratic, Quadratic.ofPolynomial p = .ok quadratic ∧ quadratic.polynomial = p := by
  have hnone : List.find? (fun t => decide (quadraticDegree < t.1.length)) p.terms = none :=
    List.find?_eq_none.mpr fun t ht => by
      exact Nat.not_lt.mpr (degree_le_iff.mp h t ht) ∘ of_decide_eq_true
  rw [Quadratic.ofPolynomial]
  split
  · rename_i heq
    rw [hnone] at heq
    cases heq
  · exact ⟨_, rfl, rfl⟩

/-- A change of the domain keeps the numbering. -/
theorem index_toDomain (hp : p.WellFormed K) : (p.toDomain e).index = p.index := by
  refine index_ofParts fun s hs v hv => ?_
  obtain ⟨t, ht, hsub⟩ := exists_sublist_of_mem_toDomain (e := e) hp
    (by rw [terms_toDomain hp]; exact hs)
  exact hp.indexed t ht v (hsub.subset hv)

/-- A change of the domain keeps the records. -/
@[simp]
theorem ancillas_toDomain : (p.toDomain e).ancillas = p.ancillas :=
  ancillas_ofParts _ _ _

/-- A term that is part of no other term still occurs after the conversion. -/
theorem mem_toDomain_of_maximal (hp : p.WellFormed K) {t : Term V × Coefficient} (ht : t ∈ p.terms)
    (hmax : ∀ t' ∈ p.terms, t.1.Sublist t'.1 → t'.1 = t.1) :
    ∃ c, (t.1, c) ∈ (p.toDomain e).terms := by
  classical
  obtain ⟨ρ, hρ⟩ := (hp.terms.entries t ht).exists_eval_ne_zero
  refine ⟨_, mem_of_eval_termCoefficient_ne_zero (ρ := ρ) ?_⟩
  rw [eval_termCoefficient (hp.toDomain e).terms, weighted_toDomain hp, convertedWeight]
  split
  · rw [weighted, Table.total_eq_single hp.terms.sorted ht fun t' _ hne => by
      rw [if_neg hne, mul_zero]]
    simpa using hρ
  · -- only the term itself has all of its variables in its expansion
    rw [weighted, Table.total_eq_single hp.terms.sorted ht]
    · rw [subsetWeight]
      simp only [mul_ite, mul_one, mul_zero]
      rw [Term.sum_subsets_self, Nat.sub_self, pow_zero, one_mul]
      exact mul_ne_zero hρ (pow_ne_zero _ d.substitution_ne_zero)
    · intro t' ht' hne
      rw [subsetWeight, List.sum_eq_zero, mul_zero]
      intro q hq
      obtain ⟨s, hs, rfl⟩ := List.mem_map.mp hq
      rw [if_neg, mul_zero]
      rintro rfl
      exact hne (hmax t' ht' (Term.mem_subsets.mp hs))

/-- The same variables occur before and after a conversion. -/
theorem mem_vars_toDomain (hp : p.WellFormed K) : v ∈ (p.toDomain e).vars ↔ v ∈ p.vars := by
  constructor
  · intro h
    obtain ⟨s, hs, hv⟩ := mem_vars.mp h
    obtain ⟨t, ht, hsub⟩ := exists_sublist_of_mem_toDomain hp hs
    exact mem_vars.mpr ⟨t, ht, hsub.subset hv⟩
  · intro h
    obtain ⟨t₀, ht₀, hv₀⟩ := mem_vars.mp h
    -- a longest term with the variable is part of no other
    have hfin : {t | t ∈ p.terms ∧ v ∈ t.1}.Finite :=
      (List.finite_toSet p.terms).subset fun t ht => ht.1
    obtain ⟨t, ⟨ht, hv⟩, hlongest⟩ :=
      Set.exists_max_image _ (fun t => t.1.length) hfin ⟨t₀, ht₀, hv₀⟩
    obtain ⟨c, hc⟩ := mem_toDomain_of_maximal (e := e) hp ht fun t' ht' hsub =>
      (hsub.eq_of_length_le (hlongest t' ⟨ht', hsub.subset hv⟩)).symm
    exact mem_vars.mpr ⟨_, hc, hv⟩

end PseudoBoolean.Polynomial
