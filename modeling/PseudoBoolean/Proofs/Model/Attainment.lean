import PseudoBoolean.Proofs.Model.Acceptance
import PseudoBoolean.Proofs.Model.Penalty

/-!
# Satisfied constraints that cost nothing

The slack is a natural number, so it makes up for the value of a satisfied constraint only if the shifted
value is a natural number below zero. With whole coefficients it always is. With fractions a constraint
that is satisfied may cost something whatever the slack bits are, and exactly these values do
(`Compiled.attained_iff`), unless the range shows that the constraint always holds and nothing is added.
-/

namespace PseudoBoolean.Model

open PseudoBoolean.Polynomial

variable {d : Domain} {m after : Model d} {r : Relation} {p : Polynomial d Label}
  {options : ConstraintOptions} {ρ : String → ℚ} {lam l u : ℚ}

/-- The penalty of a satisfied constraint can be avoided if nothing is added, or if the shifted value is a
natural number below zero. -/
theorem Compiled.attained_iff (h : Compiled m r p options after)
    (hm : m.objective.WellFormed Coefficient.IsRational) (hp : p.WellFormed Coefficient.IsRational)
    (hweight : options.weight = .num (.exact lam)) (hlam : 0 < lam)
    (hrange : options.bounds.elim p.bounds .ok = .ok (.exact l, .exact u))
    (hencloses : ∀ x, d.IsPoint x → l ≤ p.eval ρ x ∧ p.eval ρ x ≤ u)
    (hroom : HasRoom after.objective.index.labels) {x : Label → ℚ} (hx : d.IsPoint x)
    (hholds : r.Holds (p.eval ρ x)) :
    (∃ y, d.IsPoint y ∧ (∀ v ∉ m.slackLabels p after, y v = x v) ∧
        after.objective.eval ρ y = m.objective.eval ρ y) ↔
      r.classify (.exact l) (.exact u) = some .alwaysSatisfied ∨
        ∃ k : ℕ, shifted r (p.eval ρ x) = -(k : ℚ) := by
  rcases h.exists_measure hm hp hrange hencloses hroom with
    ⟨hverdict, hsame, -⟩ | ⟨hverdict, ancillas, q, hafter, hmeasure⟩
  · exact iff_of_true ⟨x, hx, fun _ _ => rfl, by rw [hsame]⟩ (.inl hverdict)
  · -- an equation that always holds is compiled like any other
    have hequality : r.classify (.exact l) (.exact u) = some .alwaysSatisfied →
        ∃ k : ℕ, shifted r (p.eval ρ x) = -(k : ℚ) := fun halways => by
      obtain rfl := hverdict.resolve_right (not_not_intro halways)
      exact ⟨0, by rw [shifted, Nat.cast_zero, neg_zero]; exact hholds⟩
    have hzero : ∀ y, d.IsPoint y →
        (after.objective.eval ρ y = m.objective.eval ρ y ↔ q.eval ρ y = 0) := fun y hy => by
      have hrecords : (m.withRecords ancillas).objective.eval ρ y = m.objective.eval ρ y := rfl
      rw [hafter, hweight, eval_addPenalty (m := m.withRecords ancillas)
        ⟨hm.terms, hm.distinct, hm.indexed⟩ hmeasure.wellFormed hy, hrecords, add_eq_left,
        mul_eq_zero_iff_right hlam.ne', pow_eq_zero_iff two_ne_zero]
    rw [or_iff_right_of_imp hequality, ← hmeasure.zero_iff x hx hholds]
    exact exists_congr fun y => and_congr_right fun hy => and_congr_right fun _ => hzero y hy

/-- A satisfied constraint costs nothing, for some values of the slack bits, exactly if its range shows
that it always holds or its shifted value is a natural number below zero. -/
theorem addConstraint_attained_iff (m : Model d) (r : Relation) (p : Polynomial d Label)
    (options : ConstraintOptions) {diagnostic : Option Diagnostic}
    (hm : m.objective.WellFormed Coefficient.IsRational) (hp : p.WellFormed Coefficient.IsRational)
    (hweight : options.weight = .num (.exact lam)) (hlam : 0 < lam) (hnone : options.bounds = none)
    (hbounds : p.bounds = .ok (.exact l, .exact u))
    (h : m.addConstraint r p options = (after, .ok diagnostic))
    (hroom : HasRoom after.objective.index.labels) :
    ∀ a, Assignment.Covers d (m.objective.vars ++ p.vars ++ m.slackLabels p after) a →
      ∃ y v : ℚ, m.objective.valueNumber a = .ok (.exact y) ∧ p.valueNumber a = .ok (.exact v) ∧
        (r.Holds v →
          ((∃ b, Assignment.Covers d (m.objective.vars ++ p.vars ++ m.slackLabels p after) b ∧
              (∀ w ∉ m.slackLabels p after, b.get? w = a.get? w) ∧
              after.objective.valueNumber b = .ok (.exact y)) ↔
            r.classify (.exact l) (.exact u) = some .alwaysSatisfied ∨
              ∃ k : ℕ, shifted r v = -(k : ℚ))) := by
  obtain ⟨compiled, hcompiled, rfl⟩ := exists_compiled h
  have hrange : options.bounds.elim p.bounds .ok = .ok (.exact l, .exact u) := by
    rw [hnone]
    exact hbounds
  obtain ⟨l', u', hbounds', hencloses⟩ := bounds_eq hp fun _ => 0
  obtain ⟨rfl, rfl⟩ : l' = l ∧ u' = u := by
    simpa using hbounds'.symm.trans hbounds
  have hpenalty := hcompiled.isPenalty (ρ := fun _ => 0) hm hp hweight hlam (by simp [hnone]) hroom
  have hnew : ∀ v ∈ m.slackLabels p compiled, v ∉ m.objective.vars := fun v hv =>
    (hcompiled.notMem_vars hm hp hroom hv).1
  intro a ha
  have hx := Assignment.isPoint_point d a
  refine ⟨_, _, valueNumber_eq hm (ha.mono fun v hv => by simp [hv]) fun _ => 0,
    valueNumber_eq hp (ha.mono fun v hv => by simp [hv]) fun _ => 0, fun hholds => ?_⟩
  refine Iff.trans ?_ (hcompiled.attained_iff hm hp hweight hlam hrange hencloses hroom hx hholds)
  constructor
  · rintro ⟨b, hb, hba, hvalue⟩
    have hpoint : ∀ v ∉ m.slackLabels p compiled, b.point d v = a.point d v := fun v hv =>
      Assignment.point_congr (hba v hv)
    have hcovers : Assignment.Covers d compiled.objective.vars b := hb.mono fun v hv => by
      have hmem := hpenalty.vars v hv
      rw [List.mem_append, List.mem_append, or_assoc]
      exact hmem
    have hafter := valueNumber_eq hpenalty.wellFormed hcovers fun _ => 0
    refine ⟨b.point d, Assignment.isPoint_point d b, hpoint, ?_⟩
    rw [Number.exact.inj (Except.ok.inj (hafter.symm.trans hvalue))]
    exact (eval_congr fun v hv => hpoint v fun hslack => hnew v hslack hv).symm
  · rintro ⟨y, hy, hyx, heq⟩
    exact hpenalty.exists_assignment_of_eval_eq hnew ha hy hyx heq

/-- The model with the demand that a variable is at most one half. -/
def halfModel : Model .binary :=
  ((empty : Model .binary).addConstraint .le halfBelow {}).1

/-- The value 0 satisfies the demand, and costs something all the same. -/
theorem addConstraint_attained_iff_half :
    halfBelow.valueNumber [(.name "x", 0)] = .ok (.exact (-1 / 2)) ∧
      ¬ ∃ b, Assignment.Covers .binary ((empty : Model .binary).objective.vars ++ halfBelow.vars ++
          (empty : Model .binary).slackLabels halfBelow halfModel) b ∧
        (∀ w ∉ (empty : Model .binary).slackLabels halfBelow halfModel,
          b.get? w = Table.get? w [(.name "x", 0)]) ∧
        halfModel.objective.valueNumber b = .ok (.exact 0) := by
  have hvars : (empty : Model .binary).objective.vars ++ halfBelow.vars ++
      (empty : Model .binary).slackLabels halfBelow halfModel = [.name "x"] := by decide +kernel
  have hok : (empty : Model .binary).addConstraint .le halfBelow {} = (halfModel, .ok none) :=
    Prod.ext rfl (by decide +kernel)
  have hvalue : halfBelow.valueNumber [(.name "x", 0)] = .ok (.exact (-1 / 2)) := by decide +kernel
  have hcovers : Assignment.Covers .binary [Label.name "x"] [(.name "x", 0)] :=
    List.forall_mem_singleton.mpr ⟨0, rfl, rfl⟩
  refine ⟨hvalue, ?_⟩
  obtain ⟨y, v, hy, hv, hiff⟩ := addConstraint_attained_iff (empty : Model .binary) .le halfBelow {}
    .empty wellFormed_halfBelow (rfl : _ = Coefficient.num (.exact 1)) one_pos rfl bounds_halfBelow
    hok (by decide +kernel) [(.name "x", 0)] (hvars ▸ hcovers)
  obtain rfl : 0 = y := Number.exact.inj (Except.ok.inj hy)
  obtain rfl := Number.exact.inj (Except.ok.inj (hvalue.symm.trans hv))
  rw [hiff (by norm_num [Relation.Holds])]
  rintro (halways | ⟨k, hk⟩)
  · exact absurd halways (by decide +kernel)
  · -- twice a natural number is not one
    have htwice : (2 * k : ℚ) = 1 := by
      rw [shifted] at hk
      linarith
    have hnat : 2 * k = 1 := by exact_mod_cast htwice
    omega

end PseudoBoolean.Model
