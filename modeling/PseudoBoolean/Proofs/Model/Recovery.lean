import PseudoBoolean.Proofs.Model.SearchOutcome

/-!
# Solutions that are brought back from canonical forms

A canonical form has the variables of the objective, and its minimum has a value for the variables that
occur. What is brought back therefore has a value for the variables that occur in the objective, and no
others (`Represents.exists_minimum`). Not every variable of a constraint is among them: a constraint that
always holds adds no penalty, and the terms of a penalty can cancel with others. At such a constraint the
check finds no value and rejects what was brought back, whatever the constraint demands
(`convertSolution_evaluates_iff`). The search of the model is not affected, as it enumerates the variables
of the constraints as well.
-/

namespace PseudoBoolean

open PseudoBoolean.Polynomial

namespace Model

variable {d : Domain} {m : Model d} {a : Assignment Label}

/-- An assignment passes the check only if it has a value for all variables of all constraints. -/
theorem exists_get?_of_isSolutionValid (h : m.isSolutionValid a) {c : Constraint d}
    (hc : c ∈ m.constraints) {v : Label} (hv : v ∈ c.polynomial.vars) : ∃ n, a.get? v = some n := by
  have hholds := List.all_eq_true.mp h c hc
  cases hvalue : c.polynomial.valueNumber a with
  | ok x => exact exists_get?_of_valueNumber hvalue hv
  | error e =>
    rw [hvalue] at hholds
    cases hholds

/-- What is brought back from the minimum of a canonical form, without ancillas, has a value for the
variables that occur in the objective, ancillas apart, and for no others. If no constraint mentions a
recorded ancilla, a constraint can be evaluated there exactly if all its variables occur in the objective,
and the check can only succeed if this is so for all constraints. -/
theorem convertSolution_evaluates_iff (hm : m.IsRational)
    (hfree : ∀ c ∈ m.constraints, ∀ v ∈ c.polynomial.vars, m.objective.ancillas.contains v = false)
    (form : CanonicalForm) (hform : form.Admissible) :
    ∃ F, form.of m.objective = .ok F ∧ (F.vars.length ≤ enumerationLimit →
      ∃ (e : ℚ) (raw : Assignment ℕ) (sol : Assignment Label),
        F.minimum = .ok (.exact e, raw) ∧ m.objective.convertSolution form.domain raw = .ok sol ∧
        (m.withoutAncillas sol).IsOn d
          (fun v => v ∈ m.objective.vars ∧ m.objective.ancillas.contains v = false) ∧
        (∀ c ∈ m.constraints,
          (∃ q : ℚ, c.polynomial.valueNumber (m.withoutAncillas sol) = .ok (.exact q)) ↔
            ∀ v ∈ c.polynomial.vars, v ∈ m.objective.vars) ∧
        (m.isSolutionValid (m.withoutAncillas sol) →
          ∀ c ∈ m.constraints, ∀ v ∈ c.polynomial.vars, v ∈ m.objective.vars)) := by
  obtain ⟨F, hF, -, hrep⟩ := exists_canonicalForm (ρ := fun _ => 0) hm.objective hform
  refine ⟨F, hF, fun hlength => ?_⟩
  obtain ⟨raw, sol, hminimum, hsol, hon, -⟩ := hrep.exists_minimum hm.objective hlength
  have hrecovered : (m.withoutAncillas sol).IsOn d
      (fun v => v ∈ m.objective.vars ∧ m.objective.ancillas.contains v = false) :=
    isOn_withoutAncillas hon
  refine ⟨_, raw, sol, hminimum, hsol, hrecovered, fun c hc => ?_, fun hvalid c hc v hv => ?_⟩
  · rw [exists_valueNumber_iff (hm.constraints c hc) hrecovered]
    exact forall₂_congr fun v hv => and_iff_left (hfree c hc v hv)
  · obtain ⟨n, hn⟩ := exists_get?_of_isSolutionValid hvalid hc hv
    exact ((hrecovered.keys v).mp (Table.mem_keys.mpr ⟨n, Table.mem_of_get?_eq_some hn⟩)).1

/-- Through the spin form of the cover, the demand can be evaluated and the bound of the other variable
cannot. -/
theorem convertSolution_evaluates_iff_bounded :
    ∃ F, CanonicalForm.of .ising boundedModel.objective = .ok F ∧
      ∃ (e : ℚ) (raw : Assignment ℕ) (sol : Assignment Label), F.minimum = .ok (.exact e, raw) ∧
        boundedModel.objective.convertSolution .spin raw = .ok sol ∧
        ∀ c ∈ boundedModel.constraints,
          (∃ q : ℚ, c.polynomial.valueNumber (boundedModel.withoutAncillas sol) = .ok (.exact q)) ↔
            c.relation = .ge := by
  have hm := run_boundedModel.isRational (by decide +kernel) (by decide +kernel)
  obtain ⟨F, hF, hminimum⟩ := convertSolution_evaluates_iff hm (by decide +kernel) .ising
    fun k hk => (Option.some_inj.mp hk).le
  have hlength : F.vars.length = 3 := by
    have hmap : (CanonicalForm.of .ising boundedModel.objective).map (·.vars.length) = .ok 3 := by
      decide +kernel
    rw [hF] at hmap
    exact Except.ok.inj hmap
  obtain ⟨e, raw, sol, hok, hsol, -, hevaluates, -⟩ := hminimum (by rw [hlength]; decide)
  refine ⟨F, hF, e, raw, sol, hok, hsol, fun c hc => (hevaluates c hc).trans ?_⟩
  exact (by decide +kernel : ∀ c ∈ boundedModel.constraints,
    (∀ v ∈ c.polynomial.vars, v ∈ boundedModel.objective.vars) ↔ c.relation = .ge) c hc

/-- An objective, and a bound for a variable that it does not have. -/
def looseModel : Model .binary :=
  ((ofObjective (ofTerms [([.name "x"], 1)])).addConstraint .le
    (ofTerms [([.name "y"], 1), ([], -1)]) {}).1

/-- The bound always holds, but what is brought back has no value for the variable and is rejected. -/
theorem convertSolution_misses :
    Run looseModel ∧ looseModel.IsRational ∧
      (∀ c ∈ looseModel.constraints, ∀ v ∈ c.polynomial.vars,
        looseModel.objective.ancillas.contains v = false) ∧
      (CanonicalForm.of .qubo looseModel.objective >>= fun F => F.minimum) =
        .ok (.exact 0, [(0, 0)]) ∧
      looseModel.objective.convertSolution .binary [(0, 0)] = .ok [(.name "x", 0)] ∧
      looseModel.withoutAncillas [(.name "x", 0)] = [(.name "x", 0)] ∧
      looseModel.isSolutionValid [(.name "x", 0)] = false ∧
      looseModel.isSolutionValid [(.name "x", 0), (.name "y", 0)] ∧
      looseModel.isSolutionValid [(.name "x", 0), (.name "y", 1)] := by
  have hrun : Run looseModel := .addConstraint _ _ (.start (.ofTerms fun _ _ => trivial))
    (.ofTerms fun _ _ => trivial) (by decide +kernel)
  refine ⟨hrun, hrun.isRational (by decide +kernel) (by decide +kernel), ?_⟩
  decide +kernel

end Model

end PseudoBoolean
