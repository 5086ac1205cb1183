import PseudoBoolean.Proofs.Model.Acceptance
import PseudoBoolean.Proofs.Model.PenaltyMethod
import PseudoBoolean.Proofs.Polynomial.Bounds
import PseudoBoolean.Proofs.Polynomial.ValueArithmetic

/-!
# Diagnostics

A diagnostic is drawn from the range of a constraint when the constraint is recorded, under the position
that the constraint gets (`exists_range_of_diagnostic`). Positions are never given twice and constraints are
never taken out, so it keeps referring to its constraint, and what it says stays true. This is the
invariant `Diagnosed` of a model. It needs no more of a demand than that its range encloses its values,
which computed ranges do. The weights of the penalties and the objective play no part.
-/

namespace PseudoBoolean.Model

open PseudoBoolean.Polynomial

variable {d : Domain} {m after : Model d} {r : Relation} {p : Polynomial d Label}
  {options : ConstraintOptions} {diagnostic : Option Diagnostic} {ρ : String → ℚ}
  {demand : Demand d} {demands : List (Demand d)}

/-! ## Where a diagnostic comes from -/

/-- The report on an equality is about its bounds. -/
theorem exists_range_of_equality {result : Model d × Option Diagnostic} {report : Diagnostic}
    (h : m.addEquality p options = .ok result) (hreport : result.2 = some report) :
    ∃ lower upper, options.bounds.elim p.bounds .ok = .ok (lower, upper) ∧
      Diagnostic.ofRange? m.constraints.length .eq lower upper = some report := by
  obtain ⟨range, hrange, hresult⟩ := exists_of_bind_eq_ok h
  obtain rfl := Except.ok.inj hresult
  obtain ⟨⟨lower, upper⟩, rfl, hclassified⟩ := Option.bind_eq_some_iff.mp hreport
  refine ⟨lower, upper, ?_, hclassified⟩
  rw [equalityRange] at hrange
  cases hbounds : options.bounds with
  | some given =>
    rw [hbounds] at hrange
    obtain rfl := Option.some.inj (Except.ok.inj hrange)
    rfl
  | none =>
    rw [hbounds] at hrange
    dsimp only at hrange
    split at hrange
    · obtain ⟨computed, hcomputed, hsome⟩ := exists_of_map_eq_ok hrange
      exact Option.some.inj hsome ▸ hcomputed
    · cases Except.ok.inj hrange

/-- The report on an inequality is about its bounds. -/
theorem diagnostic_of_compileInequality {lower upper : Number} {result : Model d × Option Diagnostic}
    (h : m.compileInequality r p lower upper options = .ok result) :
    result.2 = Diagnostic.ofRange? m.constraints.length r lower upper := by
  simp only [compileInequality] at h
  split at h
  · rw [← Except.ok.inj h]
  · rw [← Except.ok.inj h]
  · obtain ⟨compiled, -, hresult⟩ := exists_of_bind_eq_ok h
    rw [← Except.ok.inj hresult]

/-- The diagnostic of an accepted constraint is what its range says, under its position. -/
theorem exists_range_of_diagnostic {report : Diagnostic}
    (h : m.addConstraint r p options = (after, .ok (some report))) :
    ∃ lower upper, options.bounds.elim p.bounds .ok = .ok (lower, upper) ∧
      Diagnostic.ofRange? m.constraints.length r lower upper = some report := by
  by_cases hr : r = .eq
  · subst hr
    rw [addConstraint] at h
    cases hequality : m.addEquality p options with
    | error e =>
      rw [hequality] at h
      cases (Prod.mk.inj h).2
    | ok result =>
      rw [hequality] at h
      exact exists_range_of_equality hequality (Except.ok.inj (Prod.mk.inj h).2)
  · rw [addConstraint] at h
    swap
    · exact hr
    cases hbounds : options.bounds.elim p.bounds .ok with
    | error e =>
      rw [hbounds] at h
      cases (Prod.mk.inj h).2
    | ok range =>
      rw [hbounds] at h
      refine ⟨range.1, range.2, rfl, ?_⟩
      dsimp only at h
      cases hcompile : (m.skipAncillas p).compileInequality r p range.1 range.2 options with
      | error e =>
        rw [hcompile] at h
        cases (Prod.mk.inj h).2
      | ok result =>
        rw [hcompile] at h
        exact (diagnostic_of_compileInequality hcompile).symm.trans (Except.ok.inj (Prod.mk.inj h).2)

/-! ## What the diagnostics of a model say -/

/-- What a diagnostic says of a constraint, with the parameters valued by `ρ`: the verdict is right at all
points. -/
structure IsRight (ρ : String → ℚ) (report : Diagnostic) (c : Constraint d) : Prop where
  relation : c.relation = report.relation
  always : report.verdict = .alwaysSatisfied → ∀ x, d.IsPoint x → c.relation.Holds (c.polynomial.eval ρ x)
  never : report.verdict = .neverSatisfied → ∀ x, d.IsPoint x → ¬ c.relation.Holds (c.polynomial.eval ρ x)

/-- Every diagnostic refers to a recorded constraint and is right about it. -/
structure Diagnosed (ρ : String → ℚ) (m : Model d) : Prop where
  constraints : ∀ c ∈ m.constraints, c.polynomial.WellFormed Coefficient.Normal
  diagnostics : ∀ report ∈ m.diagnostics, ∃ c, m.constraints[report.constraint]? = some c ∧
    IsRight ρ report c

/-- Exact coefficients, and a range that encloses the values, if one is given. -/
structure Demand.IsEnclosed (ρ : String → ℚ) (demand : Demand d) : Prop where
  wellFormed : demand.polynomial.WellFormed Coefficient.Normal
  encloses : ∀ range ∈ demand.options.bounds, ∃ l u : ℚ, range = (.exact l, .exact u) ∧
    ∀ x, d.IsPoint x → l ≤ demand.polynomial.eval ρ x ∧ demand.polynomial.eval ρ x ≤ u

/-- A verdict on a range that encloses the values is right. -/
theorem isRight_of_range {report : Diagnostic} {lower upper : Number}
    (hp : p.WellFormed Coefficient.Normal)
    (hgiven : ∀ range ∈ options.bounds, ∃ l u : ℚ, range = (.exact l, .exact u) ∧
      ∀ x, d.IsPoint x → l ≤ p.eval ρ x ∧ p.eval ρ x ≤ u)
    (hrange : options.bounds.elim p.bounds .ok = .ok (lower, upper)) {n : ℕ}
    (hreport : Diagnostic.ofRange? n r lower upper = some report) :
    report.constraint = n ∧ IsRight ρ report (⟨r, p⟩ : Constraint d) := by
  obtain ⟨l, u, hlu, hencloses⟩ : ∃ l u : ℚ, (lower, upper) = (.exact l, .exact u) ∧
      ∀ x, d.IsPoint x → l ≤ p.eval ρ x ∧ p.eval ρ x ≤ u := by
    cases hbounds : options.bounds with
    | some range =>
      rw [hbounds] at hrange
      obtain rfl := Except.ok.inj hrange
      exact hgiven _ hbounds
    | none =>
      rw [hbounds] at hrange
      have hcomputed : p.bounds = .ok (lower, upper) := hrange
      obtain ⟨l, u, hlu, hencloses⟩ := bounds_eq (hp.isRational_of_bounds hcomputed) ρ
      exact ⟨l, u, Except.ok.inj (hcomputed.symm.trans hlu), hencloses⟩
  obtain ⟨rfl, rfl⟩ := Prod.mk.inj hlu
  obtain ⟨verdict, hverdict, rfl⟩ := Option.map_eq_some_iff.mp hreport
  refine ⟨rfl, rfl, ?_, ?_⟩
  · rintro rfl x hx
    exact Relation.classify_alwaysSatisfied hverdict (hencloses x hx).1 (hencloses x hx).2
  · rintro rfl x hx
    exact Relation.classify_neverSatisfied hverdict (hencloses x hx).1 (hencloses x hx).2

/-- Compiling writes no report yet. -/
theorem Compiled.diagnostics (h : Compiled m r p options after) : after.diagnostics = m.diagnostics := by
  cases h <;> rfl

/-- A constraint is recorded after all others, so the diagnostics before keep their constraints. -/
theorem Diagnosed.addConstraint (h : Diagnosed ρ m) (hdemand : demand.IsEnclosed ρ) :
    Diagnosed ρ (m.addConstraint demand.relation demand.polynomial demand.options).1 := by
  rcases addConstraint_cases m demand.relation demand.polynomial demand.options with
    ⟨refused, e, hrefused, herror⟩ | ⟨compiled, diagnostic, hcompiled, hok⟩
  · rw [herror]
    cases hrefused <;> exact ⟨h.constraints, h.diagnostics⟩
  rw [hok]
  have hconstraints : (compiled.recordConstraint demand.relation demand.polynomial
      diagnostic).constraints = m.constraints ++ [demand.toConstraint] := by
    rw [recordConstraint, hcompiled.constraints]
  have hdiagnostics : (compiled.recordConstraint demand.relation demand.polynomial
      diagnostic).diagnostics = m.diagnostics ++ diagnostic.toList := by
    rw [recordConstraint, hcompiled.diagnostics]
  refine ⟨?_, ?_⟩
  · rw [hconstraints]
    exact List.forall_mem_append.mpr ⟨h.constraints, List.forall_mem_singleton.mpr hdemand.wellFormed⟩
  rw [hdiagnostics, hconstraints]
  refine List.forall_mem_append.mpr ⟨fun report hreport => ?_, fun report hreport => ?_⟩
  · obtain ⟨c, hc, hright⟩ := h.diagnostics report hreport
    have hlt := (List.getElem?_eq_some_iff.mp hc).1
    exact ⟨c, by rw [List.getElem?_append_left hlt, hc], hright⟩
  · obtain rfl := Option.mem_toList.mp hreport
    obtain ⟨lower, upper, hrange, hclassified⟩ := exists_range_of_diagnostic hok
    obtain ⟨hposition, hright⟩ :=
      isRight_of_range hdemand.wellFormed hdemand.encloses hrange hclassified
    exact ⟨demand.toConstraint, by simp [hposition], hright⟩

/-- All reports stay right when constraints within their bounds are added. -/
theorem Diagnosed.addAll (h : Diagnosed ρ m) (hdemands : ∀ demand ∈ demands, demand.IsEnclosed ρ) :
    Diagnosed ρ (m.addAll demands).1 := by
  induction demands generalizing m with
  | nil => exact h
  | cons demand rest ih =>
    obtain ⟨hdemand, hrest⟩ := List.forall_mem_cons.mp hdemands
    exact ih (h.addConstraint hdemand) hrest

/-- Bounds and diagnostics are sound. The bounds of a polynomial enclose its values, and both are attained
if no term has more than one variable. Whatever constraints are added to a model, with ranges that enclose
their values where one is given, each diagnostic refers to a recorded constraint with its relation. That
constraint holds at every assignment if the verdict is that it always does, and at none if the verdict is
that it never does. -/
theorem diagnostics_sound (d : Domain) :
    (∀ (V : Type) [Variable V] (p : Polynomial d V), p.WellFormed Coefficient.IsRational →
      ∃ l u : ℚ, p.bounds = .ok (.exact l, .exact u) ∧ p.AllValues (fun v => l ≤ v ∧ v ≤ u) ∧
        ((∀ e ∈ p.terms, e.1.length ≤ 1) →
          (∃ a, Assignment.Covers d p.vars a ∧ p.valueNumber a = .ok (.exact l)) ∧
            ∃ a, Assignment.Covers d p.vars a ∧ p.valueNumber a = .ok (.exact u))) ∧
      ∀ (f : Polynomial d Label) (demands : List (Demand d)) (ρ : String → ℚ),
        (∀ demand ∈ demands, demand.IsEnclosed ρ) →
        ∀ report ∈ ((ofObjective f).addAll demands).1.diagnostics,
          ∃ c, ((ofObjective f).addAll demands).1.constraints[report.constraint]? = some c ∧
            c.relation = report.relation ∧
            (report.verdict = .alwaysSatisfied → ∀ a, Assignment.Covers d c.polynomial.vars a →
              ∃ v, c.polynomial.value a = .ok v ∧ c.relation.Holds (v.eval ρ)) ∧
            (report.verdict = .neverSatisfied → ∀ a, Assignment.Covers d c.polynomial.vars a →
              ∃ v, c.polynomial.value a = .ok v ∧ ¬ c.relation.Holds (v.eval ρ)) := by
  refine ⟨fun V _ p hp => bounds_spec hp, fun f demands ρ hdemands report hreport => ?_⟩
  have hstart : Diagnosed ρ (ofObjective f) := ⟨by simp [ofObjective], by simp [ofObjective]⟩
  have hlast := hstart.addAll hdemands
  obtain ⟨c, hc, hright⟩ := hlast.diagnostics report hreport
  have hvalue : ∀ a, Assignment.Covers d c.polynomial.vars a →
      ∃ v, c.polynomial.value a = .ok v ∧ v.eval ρ = c.polynomial.eval ρ (a.point d) := by
    intro a ha
    obtain ⟨v, hok, -, heval⟩ := value_eq (hlast.constraints c (List.mem_of_getElem? hc)) ha
    exact ⟨v, hok, heval ρ⟩
  refine ⟨c, hc, hright.relation, fun halways a ha => ?_, fun hnever a ha => ?_⟩
  · obtain ⟨v, hok, heval⟩ := hvalue a ha
    exact ⟨v, hok, heval ▸ hright.always halways _ (Assignment.isPoint_point d a)⟩
  · obtain ⟨v, hok, heval⟩ := hvalue a ha
    exact ⟨v, hok, heval ▸ hright.never hnever _ (Assignment.isPoint_point d a)⟩

/-- That a variable less one half is above `-1`, that it is below zero, and that it is below `-1`. -/
def halfDemands : List (Demand .binary) :=
  [⟨⟨.gt, halfBelow.addConstant 1⟩, {}⟩, ⟨⟨.lt, halfBelow⟩, {}⟩, ⟨⟨.lt, halfBelow.addConstant 1⟩, {}⟩]

/-- The first always holds, the second is refused, and the third, which has the position 1, never holds,
with the variable at one for example. -/
theorem diagnostics_sound_half :
    (∃ a, Assignment.Covers .binary halfBelow.vars a ∧
        halfBelow.valueNumber a = .ok (.exact (1 / 2))) ∧
      ((ofObjective (d := .binary) .empty).addAll halfDemands).1.diagnostics.map
        (fun report => (report.constraint, report.verdict)) =
          [(0, .alwaysSatisfied), (1, .neverSatisfied)] ∧
      ∃ c, ((ofObjective (d := .binary) .empty).addAll halfDemands).1.constraints[1]? = some c ∧
        ∃ v, c.polynomial.value [(.name "x", 1)] = .ok v ∧ ¬ c.relation.Holds (v.eval fun _ => 0) := by
  obtain ⟨hbounds, hdiagnostics⟩ := diagnostics_sound .binary
  have hwellFormed := wellFormed_halfBelow.addConstant (c := 1) (Coefficient.kind_ofNat 1)
  obtain ⟨l, u, hlu, -, hattained⟩ := hbounds Label halfBelow wellFormed_halfBelow
  rw [bounds_halfBelow] at hlu
  obtain ⟨-, hu⟩ := Prod.mk.inj (Except.ok.inj hlu)
  have hdemands : ∀ demand ∈ halfDemands, demand.IsEnclosed fun _ => 0 :=
    List.forall_mem_cons.mpr ⟨⟨hwellFormed.normal, by simp⟩,
      List.forall_mem_cons.mpr ⟨⟨wellFormed_halfBelow.normal, by simp⟩,
        List.forall_mem_singleton.mpr ⟨hwellFormed.normal, by simp⟩⟩⟩
  have hreport : (⟨1, .lt, .neverSatisfied, .exact (1 / 2), .exact (3 / 2)⟩ : Diagnostic) ∈
      ((ofObjective (d := .binary) .empty).addAll halfDemands).1.diagnostics := by decide +kernel
  have hvars : (((ofObjective (d := .binary) .empty).addAll halfDemands).1.constraints.map
      (·.polynomial.vars))[1]? = some [.name "x"] := by decide +kernel
  obtain ⟨c, hc, -, -, hnever⟩ := hdiagnostics .empty halfDemands _ hdemands _ hreport
  rw [List.getElem?_map, hc] at hvars
  have hx : c.polynomial.vars = [.name "x"] := Option.some.inj hvars
  refine ⟨?_, by decide +kernel, c, hc, hnever rfl _ ?_⟩
  · rw [hu]
    exact (hattained (by decide +kernel)).2
  · rw [hx]
    exact fun v hv => ⟨1, by rw [List.mem_singleton.mp hv]; rfl, rfl⟩

end PseudoBoolean.Model
