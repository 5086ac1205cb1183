import PseudoBoolean.Proofs.Polynomial.Uniqueness

/-!
# Equivalent products accumulate

A polynomial that is built from a list of products with coefficients has at every term the sum of the
coefficients of all products with that normal form, and the terms are those for which this sum is not zero
(`ofTerms_accumulates`). A term may be taken out and put back in between, and a sum with parameters may become
a number. This need not be followed step by step: all weighted sums of a list of products are kept
(`weighted_ofTerms`), and a single coefficient is such a sum. The order of the list does not enter into these
sums, nor does the order of the factors of a product enter into its normal form. So a rearranged list gives
an equal polynomial (`Rearranged.terms_eq`).
-/

namespace PseudoBoolean

/-! ## Sums of coefficients -/

namespace Coefficient

variable {cs : List Coefficient} {ρ : String → ℚ}

/-- The sum of a list of coefficients. -/
def sum (cs : List Coefficient) : Coefficient :=
  cs.foldl (· + ·) 0

/-- The sum of coefficients in normal form is one, and its value is the sum of their values. -/
theorem sum_spec (hcs : ∀ c ∈ cs, c.Normal) :
    (sum cs).Normal ∧ ∀ ρ, (sum cs).eval ρ = (cs.map (eval ρ)).sum := by
  have key : ∀ start : Coefficient, start.Normal → (cs.foldl (· + ·) start).Normal ∧
      ∀ ρ, (cs.foldl (· + ·) start).eval ρ = start.eval ρ + (cs.map (eval ρ)).sum := by
    induction cs with
    | nil => exact fun start hstart => ⟨hstart, fun ρ => by simp⟩
    | cons c cs ih =>
      intro start hstart
      obtain ⟨hc, hcs⟩ := List.forall_mem_cons.mp hcs
      obtain ⟨hnormal, heval⟩ := ih hcs (start + c) (hstart.add hc)
      refine ⟨hnormal, fun ρ => ?_⟩
      rw [List.foldl_cons, heval, eval_add hstart hc, List.map_cons, List.sum_cons, add_assoc]
  obtain ⟨hnormal, heval⟩ := key 0 (normal_exact 0)
  exact ⟨hnormal, fun ρ => by rw [sum, heval, eval_zero, zero_add]⟩

end Coefficient

namespace Polynomial

variable {d : Domain} {V : Type} [Variable V] {K : Coefficient → Prop} {p : Polynomial d V}
  {entries entries' : List (List V × Coefficient)} {t : Term V} {ρ : String → ℚ}

/-! ## The terms of a polynomial and its coefficients -/

theorem WellFormed.normal_termCoefficient [Coefficient.Kind K] (hp : p.WellFormed K) (t : Term V) :
    (p.termCoefficient t).Normal := by
  rw [termCoefficient]
  cases hget : p.terms.get? t with
  | none => exact Coefficient.normal_exact 0
  | some c => exact Coefficient.Kind.normal (hp.terms.entries _ (Table.mem_of_get?_eq_some hget)).kind

/-- The terms that are present are those whose coefficient is not zero. -/
theorem WellFormed.mem_keys_iff (hp : p.WellFormed K) :
    t ∈ p.terms.keys ↔ p.termCoefficient t ≠ 0 := by
  constructor
  · intro ht hzero
    obtain ⟨c, hc⟩ := Table.mem_keys.mp ht
    have hne : c.isZero = false := (hp.terms.entries _ hc).nonzero
    rw [← termCoefficient_of_mem hp.terms hc, hzero] at hne
    cases hne
  · intro hne
    by_contra ht
    rw [termCoefficient, (Table.get?_eq_none_iff hp.terms.sorted).mpr ht] at hne
    exact hne rfl

/-! ## Sums over the products -/

/-- The coefficients of the products that have a given normal form. -/
def coefficientsOf (d : Domain) (entries : List (List V × Coefficient)) (t : Term V) :
    List Coefficient :=
  (entries.filter fun e => Term.normalize d e.1 == t).map (·.2)

/-- A weighted sum of the terms is that of the products, each with the weight of its normal form. -/
theorem weighted_ofTerms [Coefficient.Kind K] (h : ∀ e ∈ entries, K e.2) (g : Term V → ℚ) :
    weighted ρ g (ofTerms entries : Polynomial d V).terms =
      (entries.map fun e => e.2.eval ρ * g (Term.normalize d e.1)).sum := by
  have haddable : Addable K (entries.map fun e => (Term.normalize d e.1, e.2)) :=
    List.forall_mem_map.mpr fun e he => ⟨Term.increasing_normalize d e.1, h e he⟩
  rw [ofTerms_eq, weighted_accumulateList .empty haddable]
  refine (zero_add _).trans ?_
  rw [weighted, Table.total, List.map_map]
  rfl

/-- A sum over a part of a list, as a sum over the whole list in which the rest counts nothing. -/
theorem sum_map_filter {α : Type} (P : α → Bool) (f : α → ℚ) (l : List α) :
    ((l.filter P).map f).sum = (l.map fun a => f a * if P a then 1 else 0).sum := by
  induction l with
  | nil => rfl
  | cons a l ih => by_cases ha : P a <;> simp [ha, ih]

/-- The coefficient of a term is the sum of those of its entries. -/
theorem termCoefficient_ofTerms (h : ∀ e ∈ entries, e.2.Normal) (t : Term V) :
    (ofTerms entries : Polynomial d V).termCoefficient t =
      Coefficient.sum (coefficientsOf d entries t) := by
  classical
  have hp : (ofTerms entries : Polynomial d V).WellFormed Coefficient.Normal := .ofTerms h
  have hcoefficients : ∀ c ∈ coefficientsOf d entries t, c.Normal :=
    List.forall_mem_map.mpr fun e he => h e (List.mem_filter.mp he).1
  obtain ⟨hsum, heval⟩ := Coefficient.sum_spec hcoefficients
  refine (hp.normal_termCoefficient t).ext hsum fun ρ => ?_
  rw [heval, eval_termCoefficient hp.terms, weighted_ofTerms h, coefficientsOf, List.map_map,
    sum_map_filter]
  simp only [Function.comp, beq_iff_eq]

/-! ## Rearranged products -/

/-- The same products with their coefficients in another order, each with its factors in another order. -/
def Rearranged (entries entries' : List (List V × Coefficient)) : Prop :=
  ∃ reordered, entries.Perm reordered ∧
    List.Forall₂ (fun e e' => e.1.Perm e'.1 ∧ e.2 = e'.2) reordered entries'

/-- A sum over the products that depends on their normal forms and coefficients alone. -/
theorem Rearranged.sum_eq (h : Rearranged entries entries') (d : Domain)
    (f : Term V → Coefficient → ℚ) :
    (entries.map fun e => f (Term.normalize d e.1) e.2).sum =
      (entries'.map fun e => f (Term.normalize d e.1) e.2).sum := by
  obtain ⟨reordered, hperm, hfactors⟩ := h
  rw [(hperm.map _).sum_eq]
  clear hperm
  induction hfactors with
  | nil => rfl
  | cons he _ ih => rw [List.map_cons, List.map_cons, List.sum_cons, List.sum_cons, ih,
      Term.normalize_eq_of_perm d he.1, he.2]

omit [Variable V] in
theorem Rearranged.forall_coefficients (h : Rearranged entries entries')
    (hentries : ∀ e ∈ entries, K e.2) : ∀ e ∈ entries', K e.2 := by
  obtain ⟨reordered, hperm, hfactors⟩ := h
  intro e' he'
  obtain ⟨e, he, -, hc⟩ := (exists_mem_of_forall₂ hfactors).2 e' he'
  exact hc ▸ hentries e (hperm.mem_iff.mpr he)

/-- Rearranged entries give the same terms. -/
theorem Rearranged.terms_eq (h : Rearranged entries entries') (hentries : ∀ e ∈ entries, e.2.Normal) :
    (ofTerms entries : Polynomial d V).terms = (ofTerms entries' : Polynomial d V).terms := by
  have hentries' := h.forall_coefficients hentries
  refine (WellFormed.ofTerms hentries).terms.ext (WellFormed.ofTerms hentries').terms fun ρ g => ?_
  rw [weighted_ofTerms hentries, weighted_ofTerms hentries']
  exact h.sum_eq d fun t c => c.eval ρ * g t

/-- Building a polynomial accumulates equivalent products in any order. The coefficient of every term is the
sum of the coefficients of all products that have it as their normal form, the terms that are present are
those for which this sum is not zero, and products in another order, with their factors in another order,
give an equal polynomial. -/
theorem ofTerms_accumulates (h : ∀ e ∈ entries, e.2.Exact) :
    (∀ t : Term V,
      (ofTerms entries : Polynomial d V).termCoefficient t =
        Coefficient.sum (coefficientsOf d entries t) ∧
      (t ∈ (ofTerms entries : Polynomial d V).terms.keys ↔
        Coefficient.sum (coefficientsOf d entries t) ≠ 0)) ∧
    ∀ entries', Rearranged entries entries' →
      (ofTerms entries : Polynomial d V).valueEq (ofTerms entries') := by
  have hnormal : ∀ e ∈ entries, e.2.Normal := fun e he => (h e he).normal
  have hp : (ofTerms entries : Polynomial d V).WellFormed Coefficient.Normal := .ofTerms hnormal
  refine ⟨fun t => ⟨termCoefficient_ofTerms hnormal t, ?_⟩, fun entries' hrearranged => ?_⟩
  · rw [hp.mem_keys_iff, termCoefficient_ofTerms hnormal]
  · have hp' : (ofTerms entries' : Polynomial d V).WellFormed Coefficient.Normal :=
      .ofTerms (hrearranged.forall_coefficients hnormal)
    exact (hp.valueEq_iff hp').mpr (hrearranged.terms_eq hnormal)

/-- Products of spins. The parameter cancels before the last of them has been added. -/
def cancellingProducts : List (List ℕ × Coefficient) :=
  [([0, 1], .param "k"), ([1, 0], -.param "k"), ([1, 2, 0, 2], 3)]

/-- Three products of the spins `0` and `1` add up to a number, whichever comes first. -/
theorem ofTerms_accumulates_cancelling :
    (ofTerms cancellingProducts : Polynomial .spin ℕ).termCoefficient [0, 1] = 3 ∧
      (ofTerms cancellingProducts : Polynomial .spin ℕ).valueEq
        (ofTerms [([0, 2, 2, 1], 3), ([0, 1], -.param "k"), ([1, 0], .param "k")]) := by
  have hk : (Coefficient.param "k").Exact := .param "k"
  have hexact : ∀ e ∈ cancellingProducts, e.2.Exact :=
    List.forall_mem_cons.mpr ⟨hk, List.forall_mem_cons.mpr
      ⟨hk.neg, List.forall_mem_singleton.mpr (.number 3)⟩⟩
  obtain ⟨hcoefficients, hequal⟩ := ofTerms_accumulates (d := .spin) hexact
  have hrearranged : Rearranged cancellingProducts
      [([0, 2, 2, 1], 3), ([0, 1], -.param "k"), ([1, 0], .param "k")] := by
    refine ⟨cancellingProducts.reverse, (List.reverse_perm _).symm, .cons ⟨?_, rfl⟩
      (.cons ⟨?_, rfl⟩ (.cons ⟨?_, rfl⟩ .nil))⟩ <;> decide
  have hsum : Coefficient.sum (coefficientsOf .spin cancellingProducts [0, 1]) = 3 := by
    decide +kernel
  exact ⟨(hcoefficients [0, 1]).1.trans hsum, hequal _ hrearranged⟩

end Polynomial

end PseudoBoolean
