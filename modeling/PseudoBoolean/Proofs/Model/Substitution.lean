import PseudoBoolean.Proofs.Model.Acceptance
import PseudoBoolean.Proofs.Model.PenaltyMethod
import PseudoBoolean.Proofs.Polynomial.Substitution

/-!
# Substitution in models

Parameters can get their values before the constraints are compiled or afterwards. Both ways lead to the
same model, apart from the diagnostics: a range that is not known while there are parameters says nothing
(`addAll_substitute`). The exponents of parameters can be of any size here; one that is not too large before
can be so in a penalty that is compiled with the parameter (`addAll_exceeds_word`).

`Follows values m m'` relates the models of the two ways. A penalty is a square with a factor, so it is
carried along because a substitution commutes with the arithmetic. The other parts of a compiled
constraint, namely its range, the slack bits and their numbers, do not depend on coefficients, provided
that an inequality with parameters comes with a range of its own.
-/

namespace PseudoBoolean

open PseudoBoolean.Polynomial

/-- Options after parameters have got values in the weight. -/
def ConstraintOptions.substitute (options : ConstraintOptions) (values : Table String Coefficient) :
    ConstraintOptions :=
  { options with weight := options.weight.substitute values }

namespace Model

variable {d : Domain} {m m' : Model d} {r : Relation} {p q : Polynomial d Label}
  {options : ConstraintOptions} {weight : Coefficient} {values : Table String Coefficient}
  {lower upper : Number} {demand : Demand d} {demands : List (Demand d)}

/-! ## Demands -/

/-- A demand after parameters have got values, in its polynomial and in its weight. -/
def Demand.substitute (demand : Demand d) (values : Table String Coefficient) : Demand d where
  relation := demand.relation
  polynomial := demand.polynomial.substitute values
  options := demand.options.substitute values

/-- A demand with exact coefficients and an exact weight. If it is an inequality with parameters, it comes
with a range. -/
structure Demand.IsExact (demand : Demand d) : Prop where
  regular : demand.polynomial.Regular Coefficient.Normal
  weight : demand.options.weight.Normal
  bounded : demand.relation ≠ .eq → demand.polynomial.params ≠ [] → demand.options.bounds ≠ none

/-! ## The parts of a compiled constraint -/

/-- The model has the data that the other one has after a substitution. -/
structure Follows (values : Table String Coefficient) (m m' : Model d) : Prop where
  objective : m'.objective = m.objective.substitute values
  constraints : m'.constraints = (m.substitute values).constraints
  nextAncilla : m'.nextAncilla = m.nextAncilla

theorem Follows.length_constraints (h : Follows values m m') :
    m'.constraints.length = m.constraints.length := by
  rw [h.constraints, Model.substitute, List.length_map]

/-- The slack bits depend on their number alone. -/
theorem Follows.nextBits_eq (h : Follows values m m') (range : ℕ) (logarithmic : Bool) :
    m'.nextBits range logarithmic = m.nextBits range logarithmic := by
  rw [nextBits, nextBits, h.nextAncilla]

/-- Recording a constraint keeps both models in step, whatever their reports. -/
theorem Follows.recordConstraint (h : Follows values m m') (r : Relation) (p : Polynomial d Label)
    (diagnostic diagnostic' : Option Diagnostic) :
    Follows values (m.recordConstraint r p diagnostic)
      (m'.recordConstraint r (p.substitute values) diagnostic') := by
  refine ⟨h.objective, ?_, h.nextAncilla⟩
  have happend := congrArg (· ++ [(⟨r, p.substitute values⟩ : Constraint d)]) h.constraints
  refine happend.trans ?_
  rw [Model.substitute, Model.substitute, Model.recordConstraint, List.map_append]
  rfl

section Exact

variable (hm : m.objective.WellFormed Coefficient.Normal) (hvalues : ∀ e ∈ values, e.2.Normal)

include hm hvalues

/-- Adding a penalty keeps both models in step, because substitution passes through the square. -/
theorem Follows.addPenalty (h : Follows values m m') (hq : q.WellFormed Coefficient.Normal)
    (hsorted : q.ancillas.Sorted) (hweight : weight.Normal) :
    Follows values (m.addPenalty q weight)
      (m'.addPenalty (q.substitute values) (weight.substitute values)) := by
  refine ⟨?_, h.constraints, h.nextAncilla⟩
  have hpow := hq.pow 2
  show m'.objective + ((q.substitute values).pow 2).scale (weight.substitute values) =
    (m.objective + (q.pow 2).scale weight).substitute values
  rw [hm.substitute_add hvalues (hpow.scale hweight), hpow.substitute_scale hvalues hweight,
    hq.substitute_pow hvalues hsorted, h.objective]

omit hvalues in
/-- What an inequality skips depends on the variables alone. -/
theorem Follows.skipAncillas (h : Follows values m m') (hp : p.WellFormed Coefficient.Normal) :
    Follows values (m.skipAncillas p) (m'.skipAncillas (p.substitute values)) := by
  refine ⟨h.objective, h.constraints, ?_⟩
  rw [Model.skipAncillas, Model.skipAncillas, h.objective, h.nextAncilla, index_substitute hm,
    index_substitute hp]

/-- The records of the bits are put beside those that the objective has. -/
theorem Follows.withBits (h : Follows values m m') (range : ℕ) (logarithmic : Bool) :
    Follows values (m.withBits range logarithmic) (m'.withBits range logarithmic) := by
  have hobjective := hm.substitute hvalues
  have hbefore : (m.withBits range logarithmic).objective.WellFormed Coefficient.Normal :=
    ⟨hm.terms, hm.distinct, hm.indexed⟩
  have hafter : (m'.withBits range logarithmic).objective.WellFormed Coefficient.Normal := by
    rw [Model.withBits, h.objective]
    exact ⟨hobjective.terms, hobjective.distinct, hobjective.indexed⟩
  refine ⟨(hbefore.substitute_eq hvalues hafter (fun ρ x _ => ?_) ?_ ?_).symm, h.constraints,
    congrArg (· + _) h.nextAncilla⟩
  · show m'.objective.eval ρ x = m.objective.eval (Coefficient.rebound values ρ) x
    rw [h.objective, eval_substitute hm hvalues]
  · show m'.objective.index = m.objective.index
    rw [h.objective, index_substitute hm]
  · show Slack.record m'.constraints.length (m'.nextBits range logarithmic) m'.objective.ancillas =
      Slack.record m.constraints.length (m.nextBits range logarithmic) m.objective.ancillas
    rw [h.nextBits_eq, h.length_constraints, h.objective, ancillas_substitute]

/-- The slack is a polynomial without parameters. -/
theorem Follows.withSlack (h : Follows values m m') (hq : q.WellFormed Coefficient.Normal)
    (hsorted : q.ancillas.Sorted) (hweight : options.weight.Normal) (range : ℕ) :
    Follows values (m.withSlack q range options)
      (m'.withSlack (q.substitute values) range (options.substitute values)) := by
  have hslack := Slack.isSlack_polynomial d (m.nextBits range options.logarithmic)
  have hbits : (m.withBits range options.logarithmic).objective.WellFormed Coefficient.Normal :=
    ⟨hm.terms, hm.distinct, hm.indexed⟩
  have hsum : (q + Slack.polynomial d (m.nextBits range options.logarithmic)).ancillas.Sorted := by
    rw [ancillas_add, hslack.ancillas]
    exact AncillaTable.sorted_merge hsorted _
  have hpenalty := (h.withBits hm hvalues range options.logarithmic).addPenalty hbits hvalues
    (hq.add hslack.wellFormed.normal) hsum hweight
  rw [hq.substitute_add hvalues hslack.wellFormed.normal,
    hslack.wellFormed.substitute_eq_self hvalues] at hpenalty
  rw [Model.withSlack, Model.withSlack, ConstraintOptions.substitute, h.nextBits_eq]
  exact hpenalty

end Exact

/-- What is to be at most zero is formed by a change of sign and by adding a unit. -/
theorem atMostZero_substitute (hp : p.WellFormed Coefficient.Normal) (hvalues : ∀ e ∈ values, e.2.Normal)
    (r : Relation) (lower upper : Number) :
    atMostZero r (p.substitute values) lower upper =
      ((atMostZero r p lower upper).1.substitute values, (atMostZero r p lower upper).2) := by
  have hone : (1 : Coefficient).Normal := Coefficient.kind_ofNat 1
  cases r with
  | eq => rfl
  | le => rfl
  | lt => exact Prod.ext (hp.substitute_addConstant hvalues hone).symm rfl
  | ge => exact Prod.ext (hp.substitute_neg hvalues).symm rfl
  | gt =>
    refine Prod.ext ?_ rfl
    show (-p.substitute values).addConstant 1 = ((-p).addConstant 1).substitute values
    rw [hp.neg.substitute_addConstant hvalues hone, hp.substitute_neg hvalues]
    rfl

/-! ## Sequences of demands -/

/-- An equation is never refused. -/
theorem exists_equalityRange (hp : p.WellFormed Coefficient.Normal) (options : ConstraintOptions) :
    ∃ range, equalityRange p options = .ok range := by
  rw [equalityRange]
  cases options.bounds with
  | some range => exact ⟨some range, rfl⟩
  | none =>
    dsimp only
    split
    · rename_i hparams
      obtain ⟨l, u, hbounds, -⟩ :=
        bounds_eq (hp.isRational_of_params (List.isEmpty_iff.mp hparams)) fun _ => 0
      exact ⟨some (.exact l, .exact u), by rw [hbounds]; rfl⟩
    · exact ⟨none, rfl⟩

/-- The answer to a demand, without the diagnostic. -/
def outcome (answer : Except Error (Option Diagnostic)) : Except Error Unit :=
  answer.map fun _ => ()

/-- Two models with their answers to a demand: the answers agree up to the diagnostic, and the second model
follows the first. -/
def FollowsWith (values : Table String Coefficient)
    (first second : Model d × Except Error (Option Diagnostic)) : Prop :=
  outcome second.2 = outcome first.2 ∧ Follows values first.1 second.1

section Exact

variable (hm : m.objective.Regular Coefficient.Normal) (hvalues : ∀ e ∈ values, e.2.Normal)

include hm hvalues

/-- An equality keeps both models in step and has the same outcome. -/
theorem Follows.addEquality (h : Follows values m m') (hp : p.Regular Coefficient.Normal)
    (hweight : options.weight.Normal) :
    FollowsWith values (m.addConstraint .eq p options)
      (m'.addConstraint .eq (p.substitute values) (options.substitute values)) := by
  obtain ⟨range, hrange⟩ := exists_equalityRange hp.toWellFormed options
  obtain ⟨range', hrange'⟩ := exists_equalityRange (hp.toWellFormed.substitute hvalues)
    (options.substitute values)
  have hpenalty := h.addPenalty hm.toWellFormed hvalues hp.toWellFormed hp.sorted hweight
  simp only [Model.addConstraint, Model.addEquality, hrange, hrange']
  exact ⟨rfl, hpenalty.recordConstraint .eq p _ _⟩

/-- With the same range, an inequality gets the same verdict and the same slack. -/
theorem Follows.compileInequality (h : Follows values m m') (hp : p.Regular Coefficient.Normal)
    (hweight : options.weight.Normal) (lower upper : Number) :
    (∃ e, m.compileInequality r p lower upper options = .error e ∧
        m'.compileInequality r (p.substitute values) lower upper (options.substitute values) =
          .error e) ∨
      ∃ after after' diagnostic, Follows values after after' ∧
        m.compileInequality r p lower upper options = .ok (after, diagnostic) ∧
        m'.compileInequality r (p.substitute values) lower upper (options.substitute values) =
          .ok (after', diagnostic) := by
  have hq := regular_atMostZero hp r lower upper
  rw [Model.compileInequality, Model.compileInequality, atMostZero_substitute hp.toWellFormed hvalues,
    h.length_constraints]
  simp only [Diagnostic.ofRange?]
  cases r.classify lower upper with
  | none =>
    simp only [Option.map_none]
    cases hrange : slackRange (atMostZero r p lower upper).2 with
    | error e =>
      rw [addSlackPenalty_eq_error hrange, addSlackPenalty_eq_error hrange]
      exact .inl ⟨e, rfl, rfl⟩
    | ok range =>
      -- the encoding is not substituted, so the weights are the same
      have hsame : Slack.weights range (options.substitute values).logarithmic =
        Slack.weights range options.logarithmic := rfl
      cases hweights : Slack.weights range options.logarithmic with
      | error e =>
        rw [addSlackPenalty_error hrange hweights, addSlackPenalty_error hrange (hsame.trans hweights)]
        exact .inl ⟨e, rfl, rfl⟩
      | ok weights =>
        obtain rfl := Slack.eq_parts hweights
        have hslack := h.withSlack hm.toWellFormed hvalues hq.toWellFormed hq.sorted hweight range
        rw [addSlackPenalty_ok hrange hweights, addSlackPenalty_ok hrange (hsame.trans hweights)]
        exact .inr ⟨_, _, _, hslack.recordConstraint r p none none, rfl, rfl⟩
  | some verdict =>
    simp only [Option.map_some]
    cases verdict with
    | alwaysSatisfied => exact .inr ⟨_, _, _, h.recordConstraint r p _ _, rfl, rfl⟩
    | neverSatisfied =>
      have hpenalty := h.addPenalty hm.toWellFormed hvalues hq.toWellFormed hq.sorted hweight
      exact .inr ⟨_, _, _, hpenalty.recordConstraint r p _ _, rfl, rfl⟩

/-- A range that is not given is computed from numbers, which a substitution leaves as they are. -/
theorem Follows.addInequality (h : Follows values m m') (hp : p.Regular Coefficient.Normal)
    (hweight : options.weight.Normal) (hr : r ≠ .eq)
    (hbounded : p.params ≠ [] → options.bounds ≠ none) :
    FollowsWith values (m.addConstraint r p options)
      (m'.addConstraint r (p.substitute values) (options.substitute values)) := by
  obtain ⟨range, hrange, hrange'⟩ : ∃ range : Number × Number,
      options.bounds.elim p.bounds .ok = .ok range ∧
        (options.substitute values).bounds.elim (p.substitute values).bounds .ok = .ok range := by
    rw [ConstraintOptions.substitute]
    cases hbounds : options.bounds with
    | some range => exact ⟨range, rfl, rfl⟩
    | none =>
      have hparams : p.params = [] := not_not.mp fun hne => hbounded hne hbounds
      have hrational := hp.toWellFormed.isRational_of_params hparams
      obtain ⟨l, u, hlu, -⟩ := bounds_eq hrational fun _ => 0
      rw [hrational.substitute_eq_self hvalues]
      exact ⟨_, hlu, hlu⟩
  have hskip := h.skipAncillas hm.toWellFormed hp.toWellFormed
  rcases hskip.compileInequality (m := m.skipAncillas p) (r := r) hm hvalues hp hweight range.1
    range.2 with ⟨e, hbefore, hafter⟩ | ⟨after, after', diagnostic, hfollows, hbefore, hafter⟩
  · rw [addConstraint_of_refused hr hrange hbefore, addConstraint_of_refused hr hrange' hafter]
    exact ⟨rfl, hskip⟩
  · rw [addConstraint_of_compiled hr hrange hbefore, addConstraint_of_compiled hr hrange' hafter]
    exact ⟨rfl, hfollows⟩

/-- One demand: both models accept it, or both refuse it for the same reason. -/
theorem Follows.addConstraint (h : Follows values m m') (hdemand : demand.IsExact) :
    FollowsWith values (m.addConstraint demand.relation demand.polynomial demand.options)
      (m'.addConstraint demand.relation (demand.substitute values).polynomial
        (demand.substitute values).options) := by
  by_cases hr : demand.relation = .eq
  · rw [hr]
    exact h.addEquality hm hvalues hdemand.regular hdemand.weight
  · exact h.addInequality hm hvalues hdemand.regular hdemand.weight hr (hdemand.bounded hr)

/-- Sequences of demands keep both models in step. -/
theorem Follows.addAll (h : Follows values m m') (hdemands : ∀ demand ∈ demands, demand.IsExact) :
    (m'.addAll (demands.map (·.substitute values))).2.map outcome =
        (m.addAll demands).2.map outcome ∧
      Follows values (m.addAll demands).1 (m'.addAll (demands.map (·.substitute values))).1 := by
  induction demands generalizing m m' with
  | nil => exact ⟨rfl, h⟩
  | cons demand rest ih =>
    obtain ⟨hdemand, hrest⟩ := List.forall_mem_cons.mp hdemands
    obtain ⟨houtcome, hafter⟩ := h.addConstraint hm hvalues hdemand
    have hregular := regular_addConstraint (r := demand.relation) hm hdemand.regular hdemand.weight
    obtain ⟨houtcomes, hlast⟩ := ih hregular hafter hrest
    refine ⟨?_, hlast⟩
    rw [List.map_cons, Model.addAll, Model.addAll, List.map_cons, List.map_cons]
    exact congrArg₂ List.cons houtcome houtcomes

end Exact

end Model

end PseudoBoolean
