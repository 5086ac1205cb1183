import PseudoBoolean.Model.Search
import PseudoBoolean.Proofs.Model.Penalty
import PseudoBoolean.Proofs.Polynomial.CanonicalForm

/-!
# The penalty method

A model is built from an objective by one constraint after the other (`Built`). Along the way the
objective with all penalties is nowhere below the base objective, it is above by the weight where some
constraint is violated, and equal where all constraints are satisfied and the slack bits are chosen well
(`IsCharged`). Each step keeps this, because the slack bits of a constraint are new: they
occur neither in the objective before nor in any of the constraints.

If the weights exceed the range of the base objective, a minimum of the compiled objective therefore
satisfies all constraints and is a minimum of the base objective among the assignments that do. Together
with the canonical forms, which keep minima, this is the method (`penaltyMethod_exact`).
-/

namespace PseudoBoolean.Model

open PseudoBoolean.Polynomial

variable {d : Domain} {m after : Model d} {f : Polynomial d Label} {ρ : String → ℚ} {margin : ℚ}

/-! ## Models built by adding constraints -/

/-- A constraint with the options with which it is added. -/
structure Demand (d : Domain) extends Constraint d where
  options : ConstraintOptions

variable {demands : List (Demand d)} {demand : Demand d}

/-- The model comes from the base objective by adding the demands in their order, each with success. -/
inductive Built (f : Polynomial d Label) : List (Demand d) → Model d → Prop
  | base : Built f [] (ofObjective f)
  | add {demands : List (Demand d)} {m after : Model d} {demand : Demand d}
      {diagnostic : Option Diagnostic} : Built f demands m →
      m.addConstraint demand.relation demand.polynomial demand.options = (after, .ok diagnostic) →
      Built f (demands ++ [demand]) after

/-- Adds demands one after the other, with the answer to each. One that is refused does not keep the others
from being added. -/
def addAll (m : Model d) : List (Demand d) → Model d × List (Except Error (Option Diagnostic))
  | [] => (m, [])
  | demand :: rest =>
    let (after, answer) := m.addConstraint demand.relation demand.polynomial demand.options
    let (last, answers) := after.addAll rest
    (last, answer :: answers)

/-- A demand that the method can handle: a whole polynomial without ancillas of its own, judged by its
computed bounds, with a weight above the margin. -/
structure Demand.IsSuitable (demand : Demand d) (margin : ℚ) : Prop where
  wellFormed : demand.polynomial.WellFormed Coefficient.IsRational
  whole : demand.polynomial.AllValues fun v => ∃ n : ℤ, v = n
  ancillas : demand.polynomial.ancillas = []
  bounds : demand.options.bounds = none
  weight : ∃ lam : ℚ, demand.options.weight = .num (.exact lam) ∧ margin < lam

/-- A demand whose penalty takes nothing away: as before, with a weight that is not negative. -/
structure Demand.IsAcceptable (demand : Demand d) : Prop where
  wellFormed : demand.polynomial.WellFormed Coefficient.IsRational
  whole : demand.polynomial.AllValues fun v => ∃ n : ℤ, v = n
  ancillas : demand.polynomial.ancillas = []
  bounds : demand.options.bounds = none
  weight : ∃ lam : ℚ, demand.options.weight = .num (.exact lam) ∧ 0 ≤ lam

/-- A demand with a suitable penalty is acceptable. -/
theorem Demand.IsSuitable.isAcceptable (h : demand.IsSuitable margin) (hmargin : 0 ≤ margin) :
    demand.IsAcceptable := by
  obtain ⟨lam, hweight, hlam⟩ := h.weight
  exact ⟨h.wellFormed, h.whole, h.ancillas, h.bounds, lam, hweight, hmargin.trans hlam.le⟩

/-- No slack bit of the model occurs in the base objective or in a constraint. -/
def SlackIsNew (m : Model d) (f : Polynomial d Label) (demands : List (Demand d)) : Prop :=
  ∀ v, m.IsSlackBit v → v ∉ f.vars ∧ ∀ demand ∈ demands, v ∉ demand.polynomial.vars

/-- It is enough to look at what is recorded. -/
theorem slackIsNew_of_forall (h : ∀ v ∈ m.objective.ancillas.keys, v ∉ f.vars ∧
    ∀ demand ∈ demands, v ∉ demand.polynomial.vars) : m.SlackIsNew f demands := by
  rintro v ⟨constraint, weight, hget⟩
  exact h v (Table.mem_keys.mpr ⟨_, Table.mem_of_get?_eq_some hget⟩)

/-- What the compiled objective has to do with the base objective and the constraints. -/
structure IsCharged (ρ : String → ℚ) (m : Model d) (f : Polynomial d Label)
    (demands : List (Demand d)) : Prop where
  wellFormed : m.objective.WellFormed Coefficient.IsRational
  le : ∀ x, d.IsPoint x → f.eval ρ x ≤ m.objective.eval ρ x
  charged : ∀ x, d.IsPoint x → ∀ demand ∈ demands,
    ¬ demand.relation.Holds (demand.polynomial.eval ρ x) →
    ∀ lam, demand.options.weight = .num (.exact lam) → f.eval ρ x + lam ≤ m.objective.eval ρ x
  attained : ∀ x, d.IsPoint x →
    (∀ demand ∈ demands, demand.relation.Holds (demand.polynomial.eval ρ x)) →
    ∃ y, d.IsPoint y ∧ (∀ v, ¬ m.IsSlackBit v → y v = x v) ∧ m.objective.eval ρ y = f.eval ρ x
  ancillas : ∀ v, m.objective.ancillas.contains v → m.IsSlackBit v

/-- A violation costs more than a margin. -/
structure IsPenalized (ρ : String → ℚ) (m : Model d) (f : Polynomial d Label)
    (demands : List (Demand d)) (margin : ℚ) : Prop extends IsCharged ρ m f demands where
  gap : ∀ x, d.IsPoint x → ∀ demand ∈ demands,
    ¬ demand.relation.Holds (demand.polynomial.eval ρ x) →
    f.eval ρ x + margin < m.objective.eval ρ x

/-- A model without constraints charges nothing. -/
theorem isCharged_ofObjective (hf : f.WellFormed Coefficient.IsRational)
    (hancillas : f.ancillas = []) : IsCharged ρ (ofObjective f) f [] where
  wellFormed := hf
  le _ _ := le_rfl
  charged _ _ _ h := absurd h List.not_mem_nil
  attained x hx _ := ⟨x, hx, fun _ _ => rfl, rfl⟩
  ancillas v h := by
    rw [ofObjective, hancillas] at h
    cases h

/-- Slack bits stay recorded. -/
theorem Compiled.isSlackBit_mono {r : Relation} {p : Polynomial d Label} {options : ConstraintOptions}
    (h : Compiled m r p options after) (hp : p.ancillas = [])
    (hroom : HasRoom after.objective.index.labels) {v : Label} (hv : m.IsSlackBit v) :
    after.IsSlackBit v := by
  rcases h.get?_ancillas hp hroom v with ⟨-, h⟩ | ⟨-, hget⟩
  · exact h
  · obtain ⟨constraint, weight, hold⟩ := hv
    exact ⟨constraint, weight, hget.trans hold⟩

/-- One more constraint: the penalties add up, and the slack bits of all constraints can be chosen
together. -/
theorem IsCharged.add (h : IsCharged ρ m f demands)
    (hcompiled : Compiled m demand.relation demand.polynomial demand.options after)
    (hdemand : demand.IsAcceptable) (hroom : HasRoom after.objective.index.labels)
    (hnew : after.SlackIsNew f (demands ++ [demand])) : IsCharged ρ after f (demands ++ [demand]) := by
  obtain ⟨lam, hweight, hlam⟩ := hdemand.weight
  have hcharge := hcompiled.isCharge (ρ := ρ) h.wellFormed hdemand.wellFormed hweight hlam
    (by simp [hdemand.bounds]) hroom
  have hwhole := (allValues_iff hdemand.wellFormed ρ).mp hdemand.whole
  refine ⟨hcharge.wellFormed, fun x hx => (h.le x hx).trans (hcharge.le x hx),
    fun x hx other hmem hviolated cost hcost => ?_, fun x hx hall => ?_, fun v hv => ?_⟩
  · rcases List.mem_append.mp hmem with hmem | hmem
    · exact (h.charged x hx other hmem hviolated cost hcost).trans (hcharge.le x hx)
    · obtain rfl := List.mem_singleton.mp hmem
      obtain rfl : lam = cost := by
        rw [hweight] at hcost
        exact Number.exact.inj (Coefficient.num.inj hcost)
      have hgap := hcharge.gap x hx hviolated (.inl (hwhole x hx))
      have hle := h.le x hx
      linarith
  · obtain ⟨hbefore, hlast⟩ := List.forall_mem_append.mp hall
    obtain ⟨y, hy, hyx, heq⟩ := h.attained x hx hbefore
    -- the bits that were chosen so far do not matter for the new constraint
    have hsame : demand.polynomial.eval ρ y = demand.polynomial.eval ρ x :=
      eval_congr fun v hv => hyx v fun hslack =>
        (hnew v (hcompiled.isSlackBit_mono hdemand.ancillas hroom hslack)).2 demand (by simp) hv
    have hholds := hlast demand (List.mem_singleton_self demand)
    rw [← hsame] at hholds
    obtain ⟨z, hz, hzy, heq'⟩ := hcharge.attained y hy hholds (hwhole y hy)
    -- and the new bits do not matter for the objective before
    have hbase : m.objective.eval ρ z = m.objective.eval ρ y :=
      eval_congr fun v hv => hzy v fun hslack =>
        (hcompiled.notMem_vars h.wellFormed hdemand.wellFormed hroom hslack).1 hv
    refine ⟨z, hz, fun v hv => ?_, heq'.trans (hbase.trans heq)⟩
    rcases hcompiled.get?_ancillas hdemand.ancillas hroom v with ⟨-, hslack⟩ | ⟨hnot, -⟩
    · exact absurd hslack hv
    · exact (hzy v hnot).trans (hyx v fun hslack =>
        hv (hcompiled.isSlackBit_mono hdemand.ancillas hroom hslack))
  · rcases hcompiled.get?_ancillas hdemand.ancillas hroom v with ⟨-, hslack⟩ | ⟨-, hget⟩
    · exact hslack
    · rw [Table.contains, hget] at hv
      exact hcompiled.isSlackBit_mono hdemand.ancillas hroom (h.ancillas v hv)

/-- The objective of a model that is built by acceptable demands is charged for each of them. -/
theorem Built.isCharged (h : Built f demands m) (hf : f.WellFormed Coefficient.IsRational)
    (hancillas : f.ancillas = []) (hdemands : ∀ demand ∈ demands, demand.IsAcceptable)
    (hroom : HasRoom m.objective.index.labels) (hnew : m.SlackIsNew f demands) :
    IsCharged ρ m f demands := by
  induction h with
  | base => exact isCharged_ofObjective hf hancillas
  | @add demands m after demand diagnostic _ hstep ih =>
    obtain ⟨hbefore, hlast⟩ := List.forall_mem_append.mp hdemands
    have hdemand := hlast demand (List.mem_singleton_self demand)
    obtain ⟨compiled, hcompiled, rfl⟩ := exists_compiled hstep
    have hroomBefore : HasRoom m.objective.index.labels := fun n hn =>
      hroom n (hcompiled.labels_subset hn)
    have hnewBefore : m.SlackIsNew f demands := fun v hv => by
      obtain ⟨hvf, hvd⟩ := hnew v (hcompiled.isSlackBit_mono hdemand.ancillas hroom hv)
      exact ⟨hvf, fun other hmem => hvd other (List.mem_append_left _ hmem)⟩
    have hadd := (ih hbefore hroomBefore hnewBefore).add hcompiled hdemand hroom hnew
    exact ⟨hadd.wellFormed, hadd.le, hadd.charged, hadd.attained, hadd.ancillas⟩

/-- If the weights are above a margin, so is what a violation costs. -/
theorem Built.isPenalized (h : Built f demands m) (hf : f.WellFormed Coefficient.IsRational)
    (hancillas : f.ancillas = []) (hmargin : 0 ≤ margin)
    (hdemands : ∀ demand ∈ demands, demand.IsSuitable margin)
    (hroom : HasRoom m.objective.index.labels) (hnew : m.SlackIsNew f demands) :
    IsPenalized ρ m f demands margin := by
  have hcharged := h.isCharged (ρ := ρ) hf hancillas
    (fun demand hmem => (hdemands demand hmem).isAcceptable hmargin) hroom hnew
  refine ⟨hcharged, fun x hx demand hmem hviolated => ?_⟩
  obtain ⟨lam, hweight, hlam⟩ := (hdemands demand hmem).weight
  have := hcharged.charged x hx demand hmem hviolated lam hweight
  linarith

/-- A built model records the constraints of its demands in order. -/
theorem Built.constraints (h : Built f demands m) :
    m.constraints = demands.map Demand.toConstraint := by
  induction h with
  | base => rfl
  | add _ hstep ih =>
    obtain ⟨compiled, hcompiled, rfl⟩ := exists_compiled hstep
    rw [recordConstraint, hcompiled.constraints, ih, List.map_append]
    rfl

/-! ## Minima -/

/-- With weights above the range of the base objective, a minimum of the compiled objective satisfies all
constraints, and it is a minimum of the base objective among the points that do. -/
theorem IsPenalized.minimum {l u : ℚ} (h : IsPenalized ρ m f demands (u - l))
    (hbounds : ∀ x, d.IsPoint x → l ≤ f.eval ρ x ∧ f.eval ρ x ≤ u)
    (hfeasible : ∃ x, d.IsPoint x ∧
      ∀ demand ∈ demands, demand.relation.Holds (demand.polynomial.eval ρ x))
    {x : Label → ℚ} (hx : d.IsPoint x)
    (hleast : ∀ y, d.IsPoint y → m.objective.eval ρ x ≤ m.objective.eval ρ y) :
    (∀ demand ∈ demands, demand.relation.Holds (demand.polynomial.eval ρ x)) ∧
      m.objective.eval ρ x = f.eval ρ x ∧
      ∀ y, d.IsPoint y →
        (∀ demand ∈ demands, demand.relation.Holds (demand.polynomial.eval ρ y)) →
        f.eval ρ x ≤ f.eval ρ y := by
  -- the minimum is not above the base objective at any point that satisfies the constraints
  have hbelow : ∀ y, d.IsPoint y →
      (∀ demand ∈ demands, demand.relation.Holds (demand.polynomial.eval ρ y)) →
      m.objective.eval ρ x ≤ f.eval ρ y := fun y hy hall => by
    obtain ⟨z, hz, -, heq⟩ := h.attained y hy hall
    exact (hleast z hz).trans heq.le
  have hall : ∀ demand ∈ demands, demand.relation.Holds (demand.polynomial.eval ρ x) := by
    by_contra hviolated
    push Not at hviolated
    obtain ⟨demand, hmem, hviolated⟩ := hviolated
    obtain ⟨y, hy, hholds⟩ := hfeasible
    have hgap := h.gap x hx demand hmem hviolated
    have hle := hbelow y hy hholds
    have hl := (hbounds x hx).1
    have hu := (hbounds y hy).2
    linarith
  have heq : m.objective.eval ρ x = f.eval ρ x := le_antisymm (hbelow x hx hall) (h.le x hx)
  exact ⟨hall, heq, fun y hy hholds => heq ▸ hbelow y hy hholds⟩

/-- An assignment gives every variable of the constraints a value, such that all of them hold exactly. -/
def Satisfies (m : Model d) (a : Assignment Label) : Prop :=
  ∀ c ∈ m.constraints, Assignment.Covers d c.polynomial.vars a ∧
    ∃ v : ℚ, c.polynomial.valueNumber a = .ok (.exact v) ∧ c.relation.Holds v

/-- Whether the constraints of a model are satisfied is seen at the point of an assignment. -/
theorem Built.satisfies_iff (h : Built f demands m) (ρ : String → ℚ)
    (hdemands : ∀ demand ∈ demands, demand.polynomial.WellFormed Coefficient.IsRational)
    {a : Assignment Label} :
    m.Satisfies a ↔ ∀ demand ∈ demands, Assignment.Covers d demand.polynomial.vars a ∧
      demand.relation.Holds (demand.polynomial.eval ρ (a.point d)) := by
  rw [Satisfies, h.constraints, List.forall_mem_map]
  refine forall₂_congr fun demand hmem => and_congr_right fun hcovers => ?_
  have hvalue := valueNumber_eq (hdemands demand hmem) hcovers ρ
  constructor
  · rintro ⟨v, hv, hholds⟩
    rw [hvalue] at hv
    obtain rfl := Number.exact.inj (Except.ok.inj hv)
    exact hholds
  · exact fun hholds => ⟨_, hvalue, hholds⟩

/-- The penalty method is exact through every canonical form. The weights are above the range of the base
objective, some assignment satisfies all constraints, and every variable of the problem occurs in the
compiled objective. Then the minimum of a form of the compiled objective is the minimum of the base
objective among the assignments that satisfy all constraints, and its solution, brought back and without
the ancillas, is an assignment that has it. -/
theorem penaltyMethod_exact (hbuilt : Built f demands m)
    (hf : f.WellFormed Coefficient.IsRational) (hancillas : f.ancillas = [])
    {l u : ℚ} (hbounds : f.bounds = .ok (.exact l, .exact u))
    (hdemands : ∀ demand ∈ demands, demand.IsSuitable (u - l))
    (hnew : m.SlackIsNew f demands) (hroom : HasRoom m.objective.index.labels)
    (hfeasible : ∃ a, m.Satisfies a)
    (hoccurs : ∀ v, (v ∈ f.vars ∨ ∃ demand ∈ demands, v ∈ demand.polynomial.vars) →
      v ∈ m.objective.vars)
    (form : CanonicalForm) (hform : form.Admissible) :
    ∃ F, form.of m.objective = .ok F ∧ (F.vars.length ≤ enumerationLimit →
      ∃ (e : ℚ) (raw : Assignment ℕ) (sol : Assignment Label),
        F.minimum = .ok (.exact e, raw) ∧ m.objective.convertSolution form.domain raw = .ok sol ∧
        m.Satisfies (m.withoutAncillas sol) ∧
        f.valueNumber (m.withoutAncillas sol) = .ok (.exact e) ∧
        ∀ a, Assignment.Covers d f.vars a → m.Satisfies a →
          ∃ v : ℚ, f.valueNumber a = .ok (.exact v) ∧ e ≤ v) := by
  have hrange : ∀ x, d.IsPoint x → l ≤ f.eval (fun _ => 0) x ∧ f.eval (fun _ => 0) x ≤ u := by
    obtain ⟨l', u', hok, hrange⟩ := bounds_eq hf fun _ => 0
    rw [hbounds] at hok
    obtain ⟨hl, hu⟩ := Prod.mk.inj (Except.ok.inj hok)
    rwa [Number.exact.inj hl, Number.exact.inj hu]
  have hmargin : 0 ≤ u - l := by
    obtain ⟨hl, hu⟩ := hrange _ (Assignment.isPoint_point d [])
    linarith
  have hpenalized := hbuilt.isPenalized (ρ := fun _ => 0) hf hancillas hmargin hdemands hroom hnew
  have hsatisfies := fun {a} => hbuilt.satisfies_iff (fun _ => 0)
    (fun demand hmem => (hdemands demand hmem).wellFormed) (a := a)
  obtain ⟨F, hF, -, hrep⟩ := exists_canonicalForm (ρ := fun _ => 0) hpenalized.wellFormed hform
  refine ⟨F, hF, fun hlength => ?_⟩
  obtain ⟨raw, sol, hminimum, hsol, hon, hleast⟩ :=
    hrep.exists_minimum hpenalized.wellFormed hlength
  have hcovers : Assignment.Covers d m.objective.vars sol := hon.covers fun _ hv => hv
  obtain ⟨start, hstart⟩ := hfeasible
  obtain ⟨hall, heq, hbest⟩ := hpenalized.minimum hrange
    ⟨start.point d, Assignment.isPoint_point d start, fun demand hmem =>
      (hsatisfies.mp hstart demand hmem).2⟩
    (Assignment.isPoint_point d sol) hleast
  rw [heq] at hminimum
  have hsorted := hon.sorted
  -- the variables of the problem are not recorded as ancillas, so they keep their values
  have hkept : ∀ v, (m.IsSlackBit v → False) → m.objective.ancillas.contains v = false :=
    fun v hv => Bool.eq_false_iff.mpr fun hmem => hv (hpenalized.ancillas v hmem)
  have hbase : ∀ v ∈ f.vars, m.objective.ancillas.contains v = false := fun v hv =>
    hkept v fun hslack => (hnew v hslack).1 hv
  refine ⟨_, raw, sol, hminimum, hsol, hsatisfies.mpr fun demand hmem => ?_, ?_, fun a ha hsat => ?_⟩
  · have hvars : ∀ v ∈ demand.polynomial.vars, m.objective.ancillas.contains v = false :=
      fun v hv => hkept v fun hslack => (hnew v hslack).2 demand hmem hv
    rw [withoutAncillas, eval_withoutAncillas hsorted hvars]
    exact ⟨covers_withoutAncillas hsorted
      (hcovers.mono fun v hv => hoccurs v (.inr ⟨demand, hmem, hv⟩)) hvars, hall demand hmem⟩
  · rw [withoutAncillas, ← eval_withoutAncillas hsorted hbase]
    exact valueNumber_eq hf (covers_withoutAncillas hsorted
      (hcovers.mono fun v hv => hoccurs v (.inl hv)) hbase) _
  · refine ⟨_, valueNumber_eq hf ha fun _ => 0, hbest _ (Assignment.isPoint_point d a) ?_⟩
    exact fun demand hmem => (hsatisfies.mp hsat demand hmem).2

/-- The sum of two binary variables, of which at least one has to be 1. -/
def coverObjective : Polynomial .binary Label :=
  ofTerms [([.name "x"], 1), ([.name "y"], 1)]

/-- The demand that the sum of two variables is at least 1. -/
def coverDemand : Demand .binary where
  relation := .ge
  polynomial := ofTerms [([.name "x"], 1), ([.name "y"], 1), ([], -1)]
  options := { weight := 3 }

/-- The compiled model, which has a slack bit. -/
def coverModel : Model .binary :=
  ((ofObjective coverObjective).addConstraint coverDemand.relation coverDemand.polynomial
    coverDemand.options).1

theorem wellFormed_coverObjective : coverObjective.WellFormed Coefficient.IsRational :=
  WellFormed.ofTerms (by simp [show Coefficient.IsRational 1 from ⟨1, rfl⟩])

theorem built_coverModel : Built coverObjective [coverDemand] coverModel :=
  .add .base (Prod.ext rfl (by decide +kernel :
    ((ofObjective coverObjective).addConstraint coverDemand.relation coverDemand.polynomial
      coverDemand.options).2 = .ok none))

/-- The sum is at most 2, and the weight is 3. -/
theorem isSuitable_coverDemand : coverDemand.IsSuitable (2 - 0) := by
  have hp : coverDemand.polynomial.WellFormed Coefficient.IsRational :=
    WellFormed.ofTerms (by simp [show Coefficient.IsRational 1 from ⟨1, rfl⟩,
      show Coefficient.IsRational (-1) from ⟨-1, rfl⟩])
  have hterms : coverDemand.polynomial.terms = [([], -1), ([.name "x"], 1), ([.name "y"], 1)] := by
    decide +kernel
  have hwhole : ∀ e ∈ coverDemand.polynomial.terms, ∃ n : ℤ, e.2 = .num (.exact n) := by
    rw [hterms]
    exact List.forall_mem_cons.mpr ⟨⟨-1, rfl⟩, List.forall_mem_cons.mpr
      ⟨⟨1, rfl⟩, List.forall_mem_singleton.mpr ⟨1, rfl⟩⟩⟩
  exact ⟨hp, allValues_whole hp hwhole, by decide +kernel, rfl, 3, rfl, by norm_num⟩

theorem slackIsNew_coverModel : coverModel.SlackIsNew coverObjective [coverDemand] :=
  slackIsNew_of_forall (by decide +kernel)

theorem hasRoom_coverModel : HasRoom coverModel.objective.index.labels := by
  decide +kernel

theorem satisfies_coverModel : coverModel.Satisfies [(.name "x", 1), (.name "y", 1)] := by
  rw [Satisfies, built_coverModel.constraints]
  refine List.forall_mem_singleton.mpr ⟨fun v hv => ⟨1, ?_, rfl⟩, 1, by decide +kernel, zero_le_one⟩
  exact (by decide +kernel : ∀ v ∈ coverDemand.polynomial.vars,
    Table.get? v [(.name "x", (1 : ℤ)), (.name "y", 1)] = some 1) v hv

/-- A cover is found through the QUBO of the compiled model. -/
theorem penaltyMethod_exact_cover :
    ∃ F, CanonicalForm.of .qubo coverModel.objective = .ok F ∧
      ∃ (e : ℚ) (raw : Assignment ℕ) (sol : Assignment Label),
        F.minimum = .ok (.exact e, raw) ∧
        coverModel.objective.convertSolution .binary raw = .ok sol ∧
        coverModel.Satisfies (coverModel.withoutAncillas sol) ∧
        coverObjective.valueNumber (coverModel.withoutAncillas sol) = .ok (.exact e) := by
  have hoccurs : ∀ v ∈ coverObjective.vars ++ coverDemand.polynomial.vars,
      v ∈ coverModel.objective.vars := by decide +kernel
  obtain ⟨F, hF, hminimum⟩ := penaltyMethod_exact built_coverModel wellFormed_coverObjective
    (by decide +kernel) (by decide +kernel : coverObjective.bounds = .ok (.exact 0, .exact 2))
    (List.forall_mem_singleton.mpr isSuitable_coverDemand) slackIsNew_coverModel
    hasRoom_coverModel ⟨_, satisfies_coverModel⟩
    (fun v hv => hoccurs v (by simpa using hv)) .qubo (fun k hk => (Option.some_inj.mp hk).le)
  have hlength : F.vars.length = 3 := by
    have hmap : (CanonicalForm.of .qubo coverModel.objective).map (·.vars.length) = .ok 3 := by
      decide +kernel
    rw [hF] at hmap
    exact Except.ok.inj hmap
  obtain ⟨e, raw, sol, hok, hsol, hsatisfies, hvalue, -⟩ := hminimum (by rw [hlength]; decide)
  exact ⟨F, hF, e, raw, sol, hok, hsol, hsatisfies, hvalue⟩

end PseudoBoolean.Model
