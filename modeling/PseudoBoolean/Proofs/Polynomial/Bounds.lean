import PseudoBoolean.Proofs.Polynomial.Evaluation

/-!
# Bounds that are attained

Where every term has at most one variable, the terms do not stand in each other's way: each variable can
take the value at which its coefficient contributes least, or the other one, at which it contributes most.
Then the bounds are values of the polynomial (`exists_bounds_eq_eval`). With products of variables they
need not be. Parameters leave no bounds at all (`WellFormed.isRational_of_bounds`).
-/

namespace PseudoBoolean.Polynomial

variable {d : Domain} {V : Type} {ρ : String → ℚ}

/-- The position of the value at which a coefficient contributes least. -/
def leastBit : Domain → ℚ → Bool
  | .binary, c => decide (c < 0)
  | .spin, c => !decide (c < 0)

/-- The ends of the range of a coefficient are its multiples by the two values of the domain. -/
theorem termRange_exact (d : Domain) (c : ℚ) :
    d.termRange (.exact c) =
      (.exact (c * d.ofBit (leastBit d c)), .exact (c * d.ofBit (!leastBit d c))) := by
  cases d with
  | binary =>
    by_cases hc : c < 0
    · simp [Domain.termRange, Number.isNegative, leastBit, hc, Domain.ofBit]
      rfl
    · simp [Domain.termRange, Number.isNegative, leastBit, hc, Domain.ofBit]
      rfl
  | spin =>
    by_cases hc : c < 0
    · have habs : Number.abs (.exact c) = .exact (-c) := congrArg Number.exact (if_pos hc)
      have hneg : -Number.exact (-c) = .exact c := congrArg Number.exact (neg_neg c)
      simp [Domain.termRange, habs, hneg, leastBit, hc, Domain.ofBit]
    · have habs : Number.abs (.exact c) = .exact c := congrArg Number.exact (if_neg hc)
      have hneg : -Number.exact c = .exact (-c) := rfl
      simp [Domain.termRange, habs, hneg, leastBit, hc, Domain.ofBit]

/-- Both points take, at a term of a single variable, the ends of what its coefficient contributes. -/
def Spans (d : Domain) (ρ : String → ℚ) (x y : V → ℚ) (e : Term V × Coefficient) : Prop :=
  e.1 = [] ∨ ∃ v, e.1 = [v] ∧ x v = d.ofBit (leastBit d (e.2.eval ρ)) ∧
    y v = d.ofBit (!leastBit d (e.2.eval ρ))

theorem Spans.addRange_eq {x y : V → ℚ} {e : Term V × Coefficient} (h : Spans d ρ x y e)
    (lower upper : ℚ) :
    addRange d (.exact lower, .exact upper) (e.1, .exact (e.2.eval ρ)) =
      (.exact (lower + e.2.eval ρ * Term.eval x e.1), .exact (upper + e.2.eval ρ * Term.eval y e.1)) := by
  rcases h with hnil | ⟨v, hsingle, hx, hy⟩
  · rw [hnil, Term.eval_nil, Term.eval_nil, mul_one]
    rfl
  · rw [hsingle, addRange, if_neg (by simp), termRange_exact, Term.eval_cons, Term.eval_nil,
      Term.eval_cons, Term.eval_nil, mul_one, mul_one, hx, hy]
    rfl

/-- Terms of at most one variable add what they contribute at the two points. -/
theorem foldl_addRange_eq {x y : V → ℚ} {l : List (Term V × Coefficient)}
    (h : ∀ e ∈ l, Spans d ρ x y e) (lower upper : ℚ) :
    (l.map fun t => (t.1, Number.exact (t.2.eval ρ))).foldl (addRange d) (.exact lower, .exact upper) =
      (.exact (lower + weighted ρ (Term.eval x) l), .exact (upper + weighted ρ (Term.eval y) l)) := by
  induction l generalizing lower upper with
  | nil => simp
  | cons e l ih =>
    obtain ⟨he, hl⟩ := List.forall_mem_cons.mp h
    rw [List.map_cons, List.foldl_cons, he.addRange_eq, ih hl, weighted_cons, weighted_cons, add_assoc,
      add_assoc]

variable [Variable V] {p : Polynomial d V}

omit [Variable V] in
/-- The coefficients of which numbers can be made are numbers. -/
theorem exists_num_of_mapM {l : List (Term V × Coefficient)} {numbers : List (Term V × Number)}
    (h : l.mapM (fun t => do return (t.1, ← Error.ofCoefficient t.2.toNumber)) = Except.ok numbers) :
    ∀ e ∈ l, ∃ n, e.2 = .num n := by
  intro e he
  obtain ⟨t, -, ht⟩ := (exists_mem_of_forall₂ (forall₂_of_mapM h)).1 e he
  obtain ⟨n, hn, -⟩ := exists_of_bind_eq_ok ht
  cases hcase : e.2 with
  | num n => exact ⟨n, rfl⟩
  | sym s =>
    rw [hcase] at hn
    cases hn

theorem WellFormed.isRational_of_numericTerms {numbers : Table (Term V) Number}
    (hp : p.WellFormed Coefficient.Normal) (h : p.numericTerms = .ok numbers) :
    p.WellFormed Coefficient.IsRational := by
  refine hp.withKind fun e he => ?_
  obtain ⟨n, hn⟩ := exists_num_of_mapM h e he
  exact hn ▸ Coefficient.Normal.isRational_num (hn ▸ (hp.terms.entries e he).kind)

/-- There are computed bounds only without parameters. -/
theorem WellFormed.isRational_of_bounds {range : Number × Number}
    (hp : p.WellFormed Coefficient.Normal) (h : p.bounds = .ok range) :
    p.WellFormed Coefficient.IsRational := by
  obtain ⟨numbers, hnumbers, -⟩ := exists_of_bind_eq_ok h
  exact hp.isRational_of_numericTerms hnumbers

/-- If no term has more than one variable, the bounds are the values at two points. -/
theorem exists_bounds_eq_eval (hp : p.WellFormed Coefficient.IsRational)
    (hlinear : ∀ e ∈ p.terms, e.1.length ≤ 1) (ρ : String → ℚ) :
    ∃ x y : V → ℚ, d.IsPoint x ∧ d.IsPoint y ∧
      p.bounds = .ok (.exact (p.eval ρ x), .exact (p.eval ρ y)) := by
  -- a variable has one coefficient, so one choice of its value serves all terms
  let least (v : V) : Bool := leastBit d ((p.termCoefficient [v]).eval ρ)
  let x : V → ℚ := fun v => d.ofBit (least v)
  let y : V → ℚ := fun v => d.ofBit (!least v)
  have hspans : ∀ e ∈ p.terms, Spans d ρ x y e := by
    rintro ⟨t, c⟩ he
    match t, hlinear _ he with
    | [], _ => exact .inl rfl
    | [v], _ =>
      have hc := termCoefficient_of_mem hp.terms he
      exact .inr ⟨v, rfl, by rw [← hc], by rw [← hc]⟩
  refine ⟨x, y, fun v => Domain.isValue_ofBit d _, fun v => Domain.isValue_ofBit d _, ?_⟩
  rw [bounds, numericTerms_eq hp ρ]
  refine congrArg Except.ok ((foldl_addRange_eq hspans 0 0).trans ?_)
  rw [zero_add, zero_add]
  rfl

/-- The bounds enclose all values, and values at assignments attain both of them if no term has more than
one variable. -/
theorem bounds_spec (hp : p.WellFormed Coefficient.IsRational) :
    ∃ l u : ℚ, p.bounds = .ok (.exact l, .exact u) ∧ p.AllValues (fun v => l ≤ v ∧ v ≤ u) ∧
      ((∀ e ∈ p.terms, e.1.length ≤ 1) →
        (∃ a, Assignment.Covers d p.vars a ∧ p.valueNumber a = .ok (.exact l)) ∧
          ∃ a, Assignment.Covers d p.vars a ∧ p.valueNumber a = .ok (.exact u)) := by
  obtain ⟨ρ⟩ : Nonempty (String → ℚ) := ⟨fun _ => 0⟩
  obtain ⟨l, u, hbounds, hencloses⟩ := bounds_eq hp ρ
  have hattained : ∀ x, d.IsPoint x →
      ∃ a, Assignment.Covers d p.vars a ∧ p.valueNumber a = .ok (.exact (p.eval ρ x)) := by
    intro x hx
    obtain ⟨a, ha, hax, -⟩ := Assignment.exists_override hx p.vars []
    exact ⟨a, ha, by rw [valueNumber_eq hp ha ρ, eval_congr hax]⟩
  refine ⟨l, u, hbounds, (allValues_iff hp ρ).mpr hencloses, fun hlinear => ?_⟩
  obtain ⟨x, y, hx, hy, heq⟩ := exists_bounds_eq_eval hp hlinear ρ
  rw [hbounds] at heq
  obtain ⟨hl, hu⟩ := Prod.mk.inj (Except.ok.inj heq)
  rw [hl, hu]
  exact ⟨hattained x hx, hattained y hy⟩

end PseudoBoolean.Polynomial
