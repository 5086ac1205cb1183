import PseudoBoolean.Proofs.Model.Silent
import PseudoBoolean.Proofs.Polynomial.UnresolvedSquare

/-!
# Parameters without a value in a model

A constraint that is compiled leaves its penalty in the objective, and the penalty has every parameter that
the constraint has. So in a model built of constraints with positive weights, a parameter without a value in
a constraint is one in the objective as well, unless the constraint is silent. And a silent constraint with
parameters is one whose range was given, as no range is computed with parameters (`Built.showsUnresolved`).
-/

namespace PseudoBoolean.Model

open PseudoBoolean.Polynomial Monomial

variable {d : Domain} {m after : Model d} {r : Relation} {p q f : Polynomial d Label}
  {options : ConstraintOptions} {diagnostic : Option Diagnostic} {demands : List (Demand d)}
  {values : Table String Coefficient} {bounded bounded' : ℕ → Prop}

/-! ## What stands for a constraint -/

/-- The parameters stay alone in their monomials, and all get the same sign. -/
theorem linear_atMostZero (values : Table String Coefficient) (r : Relation) (hp : p.Every (Linear 1))
    (lower upper : Number) :
    ∃ sign : ℚ, sign * sign = 1 ∧ (atMostZero r p lower upper).1.Every (Linear sign) ∧
      (p.Has (Occurs values) → (atMostZero r p lower upper).1.Has (Occurs values)) := by
  have hone := persistent_linear values one_ne_zero
  have hminus := persistent_linear values (neg_ne_zero.mpr one_ne_zero)
  have hneg := hp.neg one_ne_zero
  cases r with
  | eq => exact ⟨1, one_mul 1, hp, id⟩
  | le => exact ⟨1, one_mul 1, hp, id⟩
  | lt =>
    exact ⟨1, one_mul 1, hp.addConstant hone (Coefficient.every_num hone 1), fun h =>
      has_accumulate hone hp (Coefficient.every_num hone 1) (.inl h)⟩
  | ge => exact ⟨-1, by norm_num, hneg, fun h => h.neg one_ne_zero hp⟩
  | gt =>
    exact ⟨-1, by norm_num, hneg.addConstant hminus (Coefficient.every_num hminus 1), fun h =>
      has_accumulate hminus hneg (Coefficient.every_num hminus 1) (.inl (h.neg one_ne_zero hp))⟩

theorem StandsFor.linear (h : StandsFor r p q) (values : Table String Coefficient)
    (hp : p.Every (Linear 1)) :
    ∃ sign : ℚ, sign * sign = 1 ∧ q.Every (Linear sign) ∧
      (p.Has (Occurs values) → q.Has (Occurs values)) := by
  cases h with
  | plain lower upper => exact linear_atMostZero values r hp lower upper
  | slack lower upper first weights =>
    obtain ⟨sign, hsign, hlinear, hoccurs⟩ := linear_atMostZero values r hp lower upper
    have hne : sign ≠ 0 := fun h0 => by simp [h0] at hsign
    have hpersistent := persistent_linear values hne
    have hslack : (Slack.polynomial d (Slack.bits first weights)).Every (Linear sign) := by
      refine every_of_num hpersistent fun e he => ?_
      obtain ⟨w, hw⟩ := ((Slack.isSlack_polynomial d _).wellFormed.terms.entries e he).kind
      exact ⟨_, hw⟩
    exact ⟨sign, hsign, hlinear.add hpersistent hslack, fun h =>
      has_add hpersistent hlinear hslack (.inl (hoccurs h))⟩

/-- A penalty keeps what the objective has, and brings the parameters of the constraint. -/
theorem HasPenalty.weighted (h : HasPenalty m r p options after)
    (hm : m.objective.Every (Weighted values)) (hp : p.Every (Linear 1))
    (hweight : options.weight.IsWeight values) :
    after.objective.Every (Weighted values) ∧
      (m.objective.Has (Squares values) ∨ p.Has (Occurs values) →
        after.objective.Has (Squares values)) := by
  obtain ⟨base, q, hterms, -, hq, hafter⟩ := h
  obtain ⟨sign, hsign, hlinear, hoccurs⟩ := hq.linear values hp
  have hbase : base.Every (Weighted values) := by
    rw [Polynomial.Every, hterms]
    exact hm
  have hpenalty := every_penalty hsign hlinear hweight
  rw [hafter]
  refine ⟨hbase.add persistent_weighted hpenalty, fun h => ?_⟩
  refine has_add persistent_weighted hbase hpenalty (h.imp (fun hhas => ?_) fun hhas => ?_)
  · rw [Polynomial.Has, hterms]
    exact hhas
  · exact has_penalty hsign hlinear hweight (hoccurs hhas)

/-! ## Models -/

/-- A parameter without a value in a constraint is found in the objective, unless the constraint is silent
and of those marked. -/
structure ShowsUnresolved (values : Table String Coefficient) (bounded : ℕ → Prop) (m : Model d) :
    Prop where
  objective : m.objective.Every (Weighted values)
  constraints : ∀ k c, m.constraints[k]? = some c → c.polynomial.Has (Occurs values) →
    m.isSilent k ∧ bounded k ∨ m.objective.Has (Squares values)

/-- A polynomial for which a range is computed has no parameters. -/
theorem not_has_of_bounds {range : Number × Number} (h : p.bounds = .ok range) :
    ¬ p.Has (Occurs values) := by
  rintro ⟨e, he, hoccurs⟩
  obtain ⟨numbers, hnumbers, -⟩ := exists_of_bind_eq_ok h
  obtain ⟨x, hx⟩ := exists_num_of_mapM hnumbers e he
  rw [hx] at hoccurs
  exact Coefficient.not_has_num not_occurs_nil x hoccurs

theorem ShowsUnresolved.addConstraint (hm : m.ShowsUnresolved values bounded)
    (hp : p.Every (Linear 1)) (hweight : options.weight.IsWeight values)
    (hbounded : ∀ k, bounded k → bounded' k)
    (hlast : options.bounds ≠ none → bounded' m.constraints.length)
    (h : m.addConstraint r p options = (after, .ok diagnostic)) :
    after.ShowsUnresolved values bounded' := by
  rcases silent_or_penalty_of_addConstraint h with ⟨hsilent, hobjective, range, hrange⟩ | hpenalty
  · refine ⟨hobjective ▸ hm.objective, forall_constraints_addConstraint h hm.constraints ?_ ?_⟩
    · intro k c hkc hoccurs
      rw [hobjective]
      exact (hkc hoccurs).imp_left fun hk => ⟨isSilent_addConstraint h hk.1, hbounded k hk.2⟩
    · refine fun hoccurs => .inl ⟨hsilent, hlast fun hnone => ?_⟩
      rw [hnone] at hrange
      exact not_has_of_bounds hrange hoccurs
  · obtain ⟨hweighted, hshown⟩ := hpenalty.weighted hm.objective hp hweight
    refine ⟨hweighted, forall_constraints_addConstraint h hm.constraints ?_ ?_⟩
    · exact fun k c hkc hoccurs => (hkc hoccurs).imp
        (fun hk => ⟨isSilent_addConstraint h hk.1, hbounded k hk.2⟩) fun hhas => hshown (.inl hhas)
    · exact fun hoccurs => .inr (hshown (.inr hoccurs))

/-- A demand as documents make it, with a positive weight. -/
structure Demand.IsWeighted (values : Table String Coefficient) (demand : Demand d) : Prop where
  linear : demand.polynomial.Every (Linear 1)
  weight : demand.options.weight.IsWeight values

/-- In a model built of constraints with positive weights, every parameter without a value shows, except for
those of silent constraints with given bounds. -/
theorem Built.showsUnresolved (h : Built f demands m) (hf : f.Every (Linear 1))
    (hdemands : ∀ demand ∈ demands, demand.IsWeighted values) :
    m.ShowsUnresolved values fun k =>
      ∃ demand, demands[k]? = some demand ∧ demand.options.bounds ≠ none := by
  induction h with
  | base =>
    exact ⟨hf.mono fun _ _ hx hsquares => (hx.not_squares hsquares).elim,
      fun k c hc => by simp [ofObjective] at hc⟩
  | @add demands m after demand diagnostic hbuilt hadd ih =>
    obtain ⟨hold, hnew⟩ := List.forall_mem_append.mp hdemands
    obtain ⟨hlinear, hweight⟩ := hnew demand (List.mem_singleton.mpr rfl)
    refine (ih hold).addConstraint hlinear hweight (fun k hk => ?_) (fun hbounds => ?_) hadd
    · obtain ⟨demand', hk, hbounds⟩ := hk
      exact ⟨demand', (List.getElem?_append_left (List.getElem?_eq_some_iff.mp hk).1).trans hk, hbounds⟩
    · rw [hbuilt.constraints, List.length_map]
      exact ⟨demand, List.getElem?_concat_length, hbounds⟩

end PseudoBoolean.Model
