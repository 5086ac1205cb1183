import PseudoBoolean.Proofs.CoefficientEvaluation
import PseudoBoolean.Proofs.Polynomial.Uniqueness

/-!
# Substitution in polynomials

A substitution acts on the coefficients alone, so the value of the result is that of the polynomial where
every replaced parameter has the value of its replacement (`eval_substitute`). Numbering and records stay.
Since a polynomial is determined by its values, its numbering and its records (`WellFormed.ext`), a
substitution can be carried through every operation that computes with the values at one valuation. Each
case is an application of `WellFormed.substitute_eq`. In which order coefficients vanish does not matter:
a term that is dropped leaves its variables in the numbering.
-/

namespace PseudoBoolean.Polynomial

variable {d : Domain} {V : Type} [Variable V] {K : Coefficient → Prop} {p q : Polynomial d V}
  {c k : Coefficient} {ρ : String → ℚ} {x : V → ℚ} {values : Table String Coefficient}

/-! ## Numberings of sums and powers -/

/-- The terms of the second operand bring no variables but those that it has numbered. -/
theorem index_add (p : Polynomial d V) (hq : q.WellFormed K) :
    (p + q).index = p.index.absorb q.index := by
  rw [add_eq]
  exact index_accumulateList (p := p.adopt q) fun e he v hv =>
    labels_subset_adopt p q (hq.indexed e he v hv)

/-- A product has the labels of the first factor, then the new ones of the second. -/
theorem index_mul (hp : p.WellFormed K) (hq : q.WellFormed K) :
    (p * q).index = p.index.absorb q.index := by
  rw [mul_eq]
  refine index_accumulateList (p := p.cleared.adopt q) fun e he v hv => ?_
  obtain ⟨s, hs, he⟩ := List.mem_flatMap.mp he
  obtain ⟨t, ht, rfl⟩ := List.mem_map.mp he
  rcases List.mem_append.mp (Term.mem_of_mem_normalize hv) with hv | hv
  · exact (labels_prefix_adopt p.cleared q).subset (hp.indexed s hs v hv)
  · exact labels_subset_adopt p.cleared q (hq.indexed t ht v hv)

@[simp]
theorem index_addConstant (p : Polynomial d V) (c : Coefficient) :
    (p.addConstant c).index = p.index := by
  rw [addConstant, accumulate]
  split <;> rfl

/-- However often the base is multiplied, its variables keep their numbers. -/
theorem index_pow [Coefficient.Closed K] (hp : p.WellFormed K) (n : ℕ) :
    (p.pow n).index = p.index := by
  have hmul : ∀ a b : Polynomial d V, a.WellFormed K ∧ a.index = p.index →
      b.WellFormed K ∧ b.index = p.index → (a * b).WellFormed K ∧ (a * b).index = p.index := by
    rintro a b ⟨ha, hai⟩ ⟨hb, hbi⟩
    refine ⟨ha.mul hb, ?_⟩
    rw [index_mul ha hb, hai, hbi]
    exact insertAll_of_subset fun _ hv => hv
  exact (isPowerLoop.invariant (P := fun r => r.WellFormed K ∧ r.index = p.index)
    (Q := fun r => r.WellFormed K ∧ r.index = p.index) hmul (fun b hb => hmul b b hb hb)
    ⟨hp.cleared.addConstant (Coefficient.kind_ofNat 1), index_addConstant _ _⟩ ⟨hp, rfl⟩).2

/-! ## Values after a substitution -/

/-- Giving values to parameters keeps the polynomial well formed. -/
theorem WellFormed.substitute (hp : p.WellFormed Coefficient.Normal)
    (hvalues : ∀ e ∈ values, e.2.Normal) : (p.substitute values).WellFormed Coefficient.Normal :=
  hp.mapCoefficients fun _ hc => hc.substitute hvalues

theorem index_substitute (hp : p.WellFormed K) (values : Table String Coefficient) :
    (p.substitute values).index = p.index :=
  index_mapCoefficients _ hp

@[simp]
theorem ancillas_substitute (p : Polynomial d V) (values : Table String Coefficient) :
    (p.substitute values).ancillas = p.ancillas :=
  ancillas_mapCoefficients _ p

/-- The value after a substitution is the old value where every replaced parameter has the value of its
replacement. -/
theorem eval_substitute (hp : p.WellFormed Coefficient.Normal) (hvalues : ∀ e ∈ values, e.2.Normal) :
    (p.substitute values).eval ρ x = p.eval (Coefficient.rebound values ρ) x := by
  have haddable : Addable Coefficient.Normal
      (p.terms.map fun e => (e.1, e.2.substitute values)) :=
    addable_map hp fun _ hc => hc.substitute hvalues
  rw [Polynomial.substitute, mapCoefficients_eq, eval_accumulateList hp.cleared haddable, eval_cleared,
    zero_add, weighted, Table.total, List.map_map]
  refine congrArg List.sum (List.map_congr_left fun e he => ?_)
  show (e.2.substitute values).eval ρ * Term.eval x e.1 = _
  rw [Coefficient.eval_substitute (hp.terms.entries e he).kind hvalues]

/-- Values, numbering and records determine a polynomial. -/
theorem WellFormed.ext [Coefficient.Kind K] (hp : p.WellFormed K) (hq : q.WellFormed K)
    (heval : ∀ ρ x, d.IsPoint x → p.eval ρ x = q.eval ρ x) (hindex : p.index = q.index)
    (hancillas : p.ancillas = q.ancillas) : p = q := by
  have hterms := hp.terms_eq_of_eval_eq hq heval
  cases p
  cases q
  congr

/-- A polynomial with the variables and records of another is what a substitution makes of it, if it has
the values that the other one has where every replaced parameter has the value of its replacement. -/
theorem WellFormed.substitute_eq (hp : p.WellFormed Coefficient.Normal)
    (hvalues : ∀ e ∈ values, e.2.Normal) (hq : q.WellFormed Coefficient.Normal)
    (heval : ∀ ρ x, d.IsPoint x → q.eval ρ x = p.eval (Coefficient.rebound values ρ) x)
    (hindex : q.index = p.index) (hancillas : q.ancillas = p.ancillas) : p.substitute values = q := by
  refine (hp.substitute hvalues).ext hq (fun ρ x hx => ?_) ?_ ?_
  · rw [eval_substitute hp hvalues, heval ρ x hx]
  · rw [index_substitute hp, hindex]
  · rw [ancillas_substitute, hancillas]

/-! ## Substitution commutes with the operations -/

/-- Without parameters a substitution has no effect. -/
theorem WellFormed.substitute_eq_self (hp : p.WellFormed Coefficient.IsRational)
    (hvalues : ∀ e ∈ values, e.2.Normal) : p.substitute values = p := by
  refine hp.normal.substitute_eq hvalues hp.normal (fun ρ x _ => ?_) rfl rfl
  refine congrArg List.sum (List.map_congr_left fun e he => ?_)
  show e.2.eval ρ * Term.eval x e.1 = e.2.eval (Coefficient.rebound values ρ) * Term.eval x e.1
  obtain ⟨r, hr⟩ := (hp.terms.entries e he).kind
  rw [hr, Coefficient.eval_num, Coefficient.eval_num]

/-- Without parameters all exact coefficients are numbers. -/
theorem WellFormed.isRational_of_params (hp : p.WellFormed Coefficient.Normal) (h : p.params = []) :
    p.WellFormed Coefficient.IsRational := by
  refine hp.withKind fun e he => ?_
  have hc := (hp.terms.entries e he).kind
  cases hcase : e.2 with
  | num n => exact Coefficient.Normal.isRational_num (hcase ▸ hc)
  | sym s =>
    rw [hcase] at hc
    obtain ⟨name, hname⟩ := List.exists_mem_of_ne_nil s.params (params_ne_nil hc.2)
    have hmem : name ∈ p.params := by
      rw [params, Table.mem_sortedSet]
      exact List.mem_flatMap.mpr ⟨e, he, hcase ▸ hname⟩
    rw [h] at hmem
    cases hmem

section Commute

variable (hp : p.WellFormed Coefficient.Normal) (hvalues : ∀ e ∈ values, e.2.Normal)

include hp hvalues

/-- Substituting in a multiple substitutes in the polynomial and in the factor. -/
theorem WellFormed.substitute_scale (hk : k.Normal) :
    (p.scale k).substitute values = (p.substitute values).scale (k.substitute values) := by
  have hp' := hp.substitute hvalues
  have hk' := hk.substitute hvalues
  refine (hp.scale hk).substitute_eq hvalues (hp'.scale hk') (fun ρ x _ => ?_) ?_ ?_
  · rw [eval_scale hp' hk', eval_scale hp hk, eval_substitute hp hvalues,
      Coefficient.eval_substitute hk hvalues]
  · rw [Polynomial.scale, Polynomial.scale, index_mapCoefficients _ hp', index_mapCoefficients _ hp,
      index_substitute hp]
  · rw [Polynomial.scale, Polynomial.scale, ancillas_mapCoefficients, ancillas_mapCoefficients,
      ancillas_substitute]

/-- Substitution passes through the negation. -/
theorem WellFormed.substitute_neg : (-p).substitute values = -p.substitute values := by
  have hp' := hp.substitute hvalues
  have hindex : ∀ {q : Polynomial d V}, q.WellFormed Coefficient.Normal → (-q).index = q.index :=
    fun hq => index_mapCoefficients _ hq
  have hancillas : ∀ q : Polynomial d V, (-q).ancillas = q.ancillas := ancillas_mapCoefficients _
  refine hp.neg.substitute_eq hvalues hp'.neg (fun ρ x _ => ?_) ?_ ?_
  · rw [eval_neg hp', eval_neg hp, eval_substitute hp hvalues]
  · rw [hindex hp', hindex hp, index_substitute hp]
  · rw [hancillas, hancillas, ancillas_substitute]

/-- Substitution passes through adding a constant. -/
theorem WellFormed.substitute_addConstant (hc : c.Normal) :
    (p.addConstant c).substitute values =
      (p.substitute values).addConstant (c.substitute values) := by
  have hp' := hp.substitute hvalues
  have hc' := hc.substitute hvalues
  have hancillas : ∀ (q : Polynomial d V) (c : Coefficient), (q.addConstant c).ancillas = q.ancillas :=
    fun q => ancillas_accumulate q []
  refine (hp.addConstant hc).substitute_eq hvalues (hp'.addConstant hc') (fun ρ x _ => ?_) ?_ ?_
  · rw [eval_addConstant hp' hc', eval_addConstant hp hc, eval_substitute hp hvalues,
      Coefficient.eval_substitute hc hvalues]
  · rw [index_addConstant, index_addConstant, index_substitute hp]
  · rw [hancillas, hancillas, ancillas_substitute]

/-- The numbering of a sum depends on those of its operands, and these keep all their variables. -/
theorem WellFormed.substitute_add (hq : q.WellFormed Coefficient.Normal) :
    (p + q).substitute values = p.substitute values + q.substitute values := by
  have hp' := hp.substitute hvalues
  have hq' := hq.substitute hvalues
  refine (hp.add hq).substitute_eq hvalues (hp'.add hq') (fun ρ x _ => ?_) ?_ ?_
  · rw [eval_add hp' hq', eval_add hp hq, eval_substitute hp hvalues, eval_substitute hq hvalues]
  · rw [index_add _ hq', index_add _ hq, index_substitute hp, index_substitute hq]
  · rw [ancillas_add, ancillas_add, ancillas_substitute, ancillas_substitute]

/-- Substitution passes through powers. -/
theorem WellFormed.substitute_pow (hsorted : p.ancillas.Sorted) (n : ℕ) :
    (p.pow n).substitute values = (p.substitute values).pow n := by
  have hp' := hp.substitute hvalues
  have hsorted' : (p.substitute values).ancillas.Sorted := (ancillas_substitute p values).symm ▸ hsorted
  refine (hp.pow n).substitute_eq hvalues (hp'.pow n) (fun ρ x hx => ?_) ?_ ?_
  · rw [eval_pow hp' n hx, eval_pow hp n hx, eval_substitute hp hvalues]
  · rw [index_pow hp', index_pow hp, index_substitute hp]
  · rw [ancillas_pow hsorted', ancillas_pow hsorted, ancillas_substitute]

end Commute

end PseudoBoolean.Polynomial
