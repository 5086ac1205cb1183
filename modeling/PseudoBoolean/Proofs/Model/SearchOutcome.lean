import PseudoBoolean.Proofs.Model.Run
import PseudoBoolean.Proofs.Model.Search

/-!
# What the search reports

Of any model without parameters, whatever its penalties, the search reports the minimizers of the objective
among the assignments that contend: those of the enumerated variables that pass the check, or all of them
if none passes (`bruteforce_minimizers`). So its value is the least one among those that pass, and what it
reports passes as well, as long as the constraints do not need the ancillas that are left out
(`bruteforce_passes`).

Each minimizer is found once, but what is reported are the minimizers without their ancillas. Two that
differ only in ancillas, as when the slack bits have several ways to add up to the same slack, are reported
as the same assignment twice (`solveAll_minimizers`).
-/

namespace PseudoBoolean

open PseudoBoolean.Polynomial

/-! ## Minimizers -/

namespace Polynomial

variable {d : Domain} {V : Type} [Variable V] {p : Polynomial d V} {P : Assignment V → Prop} {v : ℚ}
  {found : List (Assignment V)} {a : Assignment V}

/-- The assignment has the least value among those with a property. -/
def IsMinimizer (p : Polynomial d V) (P : Assignment V → Prop) (a : Assignment V) : Prop :=
  P a ∧ ∀ b, P b → ∃ v w : ℚ,
    p.valueNumber a = .ok (.exact v) ∧ p.valueNumber b = .ok (.exact w) ∧ v ≤ w

/-- What a search returns are the minimizers. -/
theorem Minimizers.mem_iff_isMinimizer (h : p.Minimizers P v found) :
    a ∈ found ↔ p.IsMinimizer P a := by
  rw [h.mem_iff]
  constructor
  · rintro ⟨ha, hv⟩
    refine ⟨ha, fun b hb => ?_⟩
    obtain ⟨w, hw, hle⟩ := h.least b hb
    exact ⟨v, w, hv, hw, hle⟩
  · rintro ⟨ha, hle⟩
    obtain ⟨b, hb⟩ := List.exists_mem_of_ne_nil found h.ne_nil
    obtain ⟨hP, hv⟩ := (h.mem_iff b).mp hb
    obtain ⟨w, v', hw, hv', hwv⟩ := hle b hP
    obtain rfl := Number.exact.inj (Except.ok.inj (hv.symm.trans hv'))
    obtain ⟨w', hw', hvw⟩ := h.least a ha
    obtain rfl := Number.exact.inj (Except.ok.inj (hw.symm.trans hw'))
    rw [le_antisymm hwv hvw] at hw
    exact ⟨ha, hw⟩

end Polynomial

namespace Model

variable {d : Domain} {m : Model d} {a b : Assignment Label}

/-! ## The assignments of a search -/

/-- The objective and the constraints have no parameters and exact coefficients. -/
structure IsRational (m : Model d) : Prop where
  objective : m.objective.WellFormed Coefficient.IsRational
  constraints : ∀ c ∈ m.constraints, c.polynomial.WellFormed Coefficient.IsRational

/-- After a run this depends on the coefficients alone. -/
theorem Run.isRational (h : Run m) (hobjective : ∀ e ∈ m.objective.terms, e.2.IsRational)
    (hconstraints : ∀ c ∈ m.constraints, ∀ e ∈ c.polynomial.terms, e.2.IsRational) :
    m.IsRational where
  objective := h.regular.1.toWellFormed.withKind hobjective
  constraints c hc := (h.regular.2 c hc).toWellFormed.withKind (hconstraints c hc)

/-- An assignment of the enumerated variables. -/
def IsEnumerated (m : Model d) (a : Assignment Label) : Prop :=
  a.IsOn d (· ∈ m.enumeratedVariables)

/-- An assignment of the enumerated variables that passes the check. -/
def Passes (m : Model d) (a : Assignment Label) : Prop :=
  m.IsEnumerated a ∧ m.isSolutionValid a

/-- The assignments among which the least value is sought: those that pass, or all if none passes. -/
def Contends (m : Model d) (a : Assignment Label) : Prop :=
  m.IsEnumerated a ∧ ((∃ b, m.Passes b) → m.isSolutionValid a)

/-- Where some assignment passes, those that pass compete. -/
theorem contends_eq_passes (h : ∃ b, m.Passes b) : m.Contends = m.Passes :=
  funext fun _ => propext (and_congr_right fun _ => forall_prop_of_true h)

/-- Where none passes, all that are enumerated compete. -/
theorem contends_eq_isEnumerated (h : ¬ ∃ b, m.Passes b) : m.Contends = m.IsEnumerated :=
  funext fun _ => propext (and_iff_left fun hpasses => absurd hpasses h)

/-- The check looks at the variables of the constraints only. -/
theorem isSolutionValid_congr
    (h : ∀ c ∈ m.constraints, ∀ v ∈ c.polynomial.vars, b.get? v = a.get? v) :
    m.isSolutionValid b = m.isSolutionValid a := by
  unfold isSolutionValid
  rw [Bool.eq_iff_iff, List.all_eq_true, List.all_eq_true]
  refine forall₂_congr fun c hc => ?_
  rw [valueNumber_congr (h c hc)]

/-- Ancillas that no constraint mentions can be left out. -/
theorem isSolutionValid_withoutAncillas (ha : a.Sorted)
    (hfree : ∀ c ∈ m.constraints, ∀ v ∈ c.polynomial.vars, m.objective.ancillas.contains v = false) :
    m.isSolutionValid (m.withoutAncillas a) = m.isSolutionValid a :=
  isSolutionValid_congr fun c hc v hv => get?_withoutAncillas ha (hfree c hc v hv)

/-- The search sets every variable of the objective. -/
theorem IsRational.mem_enumeratedVariables (hm : m.IsRational) :
    ∀ v ∈ m.objective.vars, v ∈ m.enumeratedVariables := fun _ hv =>
  mem_enumeratedVariables_of_mem_labels (hm.objective.mem_labels hv)

/-- A rational objective has an exact value at each enumerated assignment. -/
theorem IsRational.exists_value (hm : m.IsRational) (ha : m.IsEnumerated a) :
    ∃ w : ℚ, m.objective.valueNumber a = .ok (.exact w) :=
  ⟨_, valueNumber_eq hm.objective (ha.covers hm.mem_enumeratedVariables) fun _ => 0⟩

/-! ## The outcome -/

section Outcome

variable (hm : m.IsRational) (hlength : m.enumeratedVariables.length ≤ enumerationLimit)

include hm hlength

/-- The search finds the minimizers among the assignments that contend, and reports all of them or the
first, without ancillas. -/
theorem bruteforce_minimizers :
    ∃ (v : ℚ) (found : List (Assignment Label)), m.objective.Minimizers m.Contends v found ∧
      ∀ all, m.bruteforce all =
        .ok (.exact v, (if all then found else found.take 1).map m.withoutAncillas) := by
  have hnodup := nodup_enumeratedVariables hm.objective.distinct
  have hminimizers := minimizeWhere_minimizers hm.objective hnodup hm.mem_enumeratedVariables hlength
  rcases hminimizers m.isSolutionValid with ⟨hrejected, hok⟩ | ⟨v, found, hfound, -, hok⟩
  · -- the search is made again, and now admits all assignments
    have hnone : ¬ ∃ b, m.Passes b := fun ⟨b, hb, hvalid⟩ => by
      rw [hrejected b hb] at hvalid
      cases hvalid
    rw [contends_eq_isEnumerated hnone]
    rcases hminimizers fun _ => true with ⟨hrejected', -⟩ | ⟨v, found, hfound, -, hok'⟩
    · cases hrejected' (decode d m.enumeratedVariables 0) (isOn_decode hnodup)
    · have hadmitted : (fun a => a.IsOn d (· ∈ m.enumeratedVariables) ∧ true) = m.IsEnumerated :=
        funext fun _ => propext (and_iff_left rfl)
      refine ⟨v, found, hadmitted ▸ hfound, fun all => ?_⟩
      simp only [bruteforce, hok, minimize, hok']
      rfl
  · have hsome : ∃ b, m.Passes b := by
      obtain ⟨b, hb⟩ := List.exists_mem_of_ne_nil found hfound.ne_nil
      exact ⟨b, ((hfound.mem_iff b).mp hb).1⟩
    rw [contends_eq_passes hsome]
    exact ⟨v, found, hfound, fun all => by rw [bruteforce, hok]; rfl⟩

/-- The search succeeds. Its value is the least one of the objective among the assignments of the enumerated
variables that pass the check, or among all of them if none passes. The single solution is the first of all
solutions. If some assignment passes, all solutions pass too, although their ancillas are left out, unless a
constraint mentions a recorded ancilla. -/
theorem bruteforce_passes :
    ∃ (v : ℚ) (first : Assignment Label) (rest : List (Assignment Label)),
      m.bruteforce true = .ok (.exact v, first :: rest) ∧
      m.bruteforce false = .ok (.exact v, [first]) ∧
      m.solveAll = .ok (first :: rest) ∧ m.solve = .ok first ∧
      (∀ a, m.IsEnumerated a → ∃ w : ℚ, m.objective.valueNumber a = .ok (.exact w)) ∧
      ((∃ a, m.Passes a) → IsLeast (m.objective.valuesOn m.Passes) v) ∧
      ((¬ ∃ a, m.Passes a) → IsLeast (m.objective.valuesOn m.IsEnumerated) v) ∧
      ((∀ c ∈ m.constraints, ∀ v ∈ c.polynomial.vars, m.objective.ancillas.contains v = false) →
        (∃ a, m.Passes a) → ∀ solution ∈ first :: rest, m.isSolutionValid solution) := by
  obtain ⟨v, found, hfound, hok⟩ := bruteforce_minimizers hm hlength
  obtain ⟨a, others, rfl⟩ := List.exists_cons_of_ne_nil hfound.ne_nil
  refine ⟨v, m.withoutAncillas a, others.map m.withoutAncillas, hok true, hok false, ?_, ?_,
    fun a ha => hm.exists_value ha, fun hsome => ?_, fun hnone => ?_, fun hfree hsome => ?_⟩
  · rw [solveAll, hok]
    rfl
  · rw [solve, hok]
    rfl
  · rw [← contends_eq_passes hsome]
    exact hfound.isLeast
  · rw [← contends_eq_isEnumerated hnone]
    exact hfound.isLeast
  · rw [← List.map_cons, List.forall_mem_map]
    intro b hb
    obtain ⟨henumerated, hvalid⟩ := ((hfound.mem_iff b).mp hb).1
    rw [isSolutionValid_withoutAncillas henumerated.sorted hfree]
    exact hvalid hsome

end Outcome

/-- The cover with the weight that is too small, and a bound for a variable that the objective does not
have. -/
def boundedModel : Model .binary :=
  (weakModel.addConstraint .le (ofTerms [([.name "z"], 1), ([], -1)]) {}).1

theorem run_boundedModel : Run boundedModel :=
  .addConstraint .le {} (.addConstraint _ _ (.start (.ofTerms fun _ _ => trivial))
    (.ofTerms fun _ _ => trivial) (by decide +kernel)) (.ofTerms fun _ _ => trivial) (by decide +kernel)

/-- All solutions are covers, with a value for the other variable. -/
theorem bruteforce_passes_bounded :
    ∃ first rest, boundedModel.bruteforce true = .ok (.exact 1, first :: rest) ∧
      boundedModel.solve = .ok first ∧
      IsLeast (boundedModel.objective.valuesOn boundedModel.Passes) 1 ∧
      ∀ solution ∈ first :: rest, boundedModel.isSolutionValid solution := by
  have hm := run_boundedModel.isRational (by decide +kernel) (by decide +kernel)
  have hpasses : boundedModel.Passes (decode .binary boundedModel.enumeratedVariables 1) :=
    ⟨isOn_decode (nodup_enumeratedVariables hm.objective.distinct), by decide +kernel⟩
  obtain ⟨v, first, rest, hall, -, -, hsolve, -, hleast, -, hvalid⟩ :=
    bruteforce_passes hm (by decide +kernel)
  have hvalue : (boundedModel.bruteforce true).map (·.1) = .ok (.exact 1) := by decide +kernel
  rw [hall] at hvalue
  obtain rfl := Number.exact.inj (Except.ok.inj hvalue)
  exact ⟨first, rest, hall, hsolve, hleast ⟨_, hpasses⟩, hvalid (by decide +kernel) ⟨_, hpasses⟩⟩

/-! ## Repeated solutions -/

/-- Each minimizer among the assignments that contend is found once, and what is reported are the minimizers
without their ancillas. So an assignment is reported twice exactly if two minimizers differ in recorded
ancillas alone. -/
theorem solveAll_minimizers (hm : m.IsRational)
    (hlength : m.enumeratedVariables.length ≤ enumerationLimit) :
    ∃ found : List (Assignment Label), m.solveAll = .ok (found.map m.withoutAncillas) ∧ found.Nodup ∧
      (∀ a, a ∈ found ↔ m.objective.IsMinimizer m.Contends a) ∧
      ((found.map m.withoutAncillas).Nodup ↔ ∀ a b, m.objective.IsMinimizer m.Contends a →
        m.objective.IsMinimizer m.Contends b → m.withoutAncillas a = m.withoutAncillas b → a = b) := by
  obtain ⟨v, found, hfound, hok⟩ := bruteforce_minimizers hm hlength
  have hmem : ∀ a, a ∈ found ↔ m.objective.IsMinimizer m.Contends a := fun a =>
    hfound.mem_iff_isMinimizer
  refine ⟨found, by rw [solveAll, hok]; rfl, hfound.nodup, hmem, ?_⟩
  rw [List.nodup_map_iff_inj_on hfound.nodup]
  constructor
  · exact fun h a b ha hb => h a ((hmem a).mpr ha) b ((hmem b).mpr hb)
  · exact fun h a ha b hb => h a b ((hmem a).mp ha) ((hmem b).mp hb)

/-- The objective asks for `x`, and `x + 2 * y` is to be at most 2. Both slack bits have the weight 1. -/
def twinModel : Model .binary :=
  ((ofObjective (ofTerms [([.name "x"], -1)])).addConstraint .le
    (ofTerms [([.name "x"], 1), ([.name "y"], 2), ([], -2)]) {}).1

theorem run_twinModel : Run twinModel :=
  .addConstraint _ _ (.start (.ofTerms fun _ _ => trivial)) (.ofTerms fun _ _ => trivial)
    (by decide +kernel)

theorem isRational_twinModel : twinModel.IsRational :=
  run_twinModel.isRational (by decide +kernel) (by decide +kernel)

theorem solveAll_twinModel :
    twinModel.solveAll =
      .ok [[(.name "x", 1), (.name "y", 0)], [(.name "x", 1), (.name "y", 0)]] := by
  decide +kernel

/-- The slack 1 comes from either bit. -/
theorem solveAll_minimizers_twin :
    ∃ a b, twinModel.objective.IsMinimizer twinModel.Contends a ∧
      twinModel.objective.IsMinimizer twinModel.Contends b ∧
      twinModel.withoutAncillas a = twinModel.withoutAncillas b ∧ a ≠ b := by
  obtain ⟨found, hok, -, -, hdistinct⟩ := solveAll_minimizers isRational_twinModel (by decide +kernel)
  have hreported := Except.ok.inj (hok.symm.trans solveAll_twinModel)
  by_contra hnone
  push Not at hnone
  have hnodup := hdistinct.mpr hnone
  rw [hreported] at hnodup
  exact absurd hnodup (by simp)

/-- So the same assignment is reported twice. -/
theorem solveAll_repeats :
    Run twinModel ∧ twinModel.IsRational ∧ twinModel.enumeratedVariables.length ≤ enumerationLimit ∧
      ∃ solution, twinModel.solveAll = .ok [solution, solution] ∧ ¬ [solution, solution].Nodup :=
  ⟨run_twinModel, isRational_twinModel, by decide +kernel, _, solveAll_twinModel, by simp⟩

end Model

end PseudoBoolean
