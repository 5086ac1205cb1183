import PseudoBoolean.Proofs.Model.Validity

/-!
# The search for solutions of models

The search goes through the compiled objective, in which the penalties may be too weak to keep violated
constraints away, and even be zero. It is right all the same (`bruteforce_exact`). Assignments that violate
a constraint are not admitted, by a check that makes no mistake on whole values
(`isSolutionValid_iff`). The compiled objective is not below the base objective, and at some values of the
slack bits it is the same, so the least value among the admitted assignments is that of the base objective
(`IsCharged.isLeast`). Every solution is found with such values of the slack bits, and without these it is
the solution again (`exists_code_of_isCandidate`).
-/

namespace PseudoBoolean

open PseudoBoolean.Polynomial

namespace Model

variable {d : Domain} {m : Model d} {f : Polynomial d Label} {demands : List (Demand d)}
  {ρ : String → ℚ}

/-! ## The enumerated variables -/

/-- The enumerated variables are those that a numbering has after it was given the variables of all
constraints. -/
theorem enumeratedVariables_eq (m : Model d) :
    m.enumeratedVariables =
      (m.objective.index.insertAll (m.constraints.flatMap (·.polynomial.vars))).labels := by
  -- one step appends a label to a list as it is inserted into a numbering
  have hinner : ∀ (vars : List Label) (index : VariableIndex Label),
      vars.foldl (fun vars v => if vars.contains v then vars else vars ++ [v]) index.labels =
        (index.insertAll vars).labels := by
    intro vars
    induction vars with
    | nil => exact fun _ => rfl
    | cons v vars ih =>
      intro index
      have hstep : (if index.labels.contains v then index.labels else index.labels ++ [v]) =
          (index.insert v).labels := by
        unfold VariableIndex.insert
        split <;> rfl
      rw [List.foldl_cons, hstep, ih]
      rfl
  unfold enumeratedVariables
  generalize m.objective.index = index
  induction m.constraints generalizing index with
  | nil => rfl
  | cons c constraints ih =>
    rw [List.foldl_cons, hinner, ih, List.flatMap_cons, VariableIndex.insertAll,
      VariableIndex.insertAll, VariableIndex.insertAll, List.foldl_append]

/-- No variable is enumerated twice. -/
theorem nodup_enumeratedVariables (h : m.objective.index.labels.Nodup) :
    m.enumeratedVariables.Nodup := by
  rw [enumeratedVariables_eq]
  exact nodup_insertAll h

/-- The variables of the objective are enumerated. -/
theorem mem_enumeratedVariables_of_mem_labels {v : Label} (h : v ∈ m.objective.index.labels) :
    v ∈ m.enumeratedVariables := by
  rw [enumeratedVariables_eq]
  exact labels_prefix_insertAll.subset h

/-- The variables of the constraints are enumerated. -/
theorem mem_enumeratedVariables_of_mem_constraints {c : Constraint d} (hc : c ∈ m.constraints)
    {v : Label} (hv : v ∈ c.polynomial.vars) : v ∈ m.enumeratedVariables := by
  rw [enumeratedVariables_eq]
  exact mem_insertAll (List.mem_flatMap.mpr ⟨c, hc, hv⟩)

/-- The variables of the base objective and of the demands are enumerated. -/
theorem Built.mem_enumeratedVariables (h : Built f demands m)
    (hf : f.WellFormed Coefficient.IsRational) {v : Label}
    (hv : v ∈ f.vars ∨ ∃ demand ∈ demands, v ∈ demand.polynomial.vars) :
    v ∈ m.enumeratedVariables := by
  rcases hv with hv | ⟨demand, hmem, hv⟩
  · apply mem_enumeratedVariables_of_mem_labels
    have hlabel := hf.mem_labels hv
    clear hv
    induction h with
    | base => exact hlabel
    | add _ hstep ih =>
      obtain ⟨compiled, hcompiled, rfl⟩ := exists_compiled hstep
      exact hcompiled.labels_subset ih
  · apply mem_enumeratedVariables_of_mem_constraints (c := demand.toConstraint) _ hv
    rw [h.constraints]
    exact List.mem_map_of_mem hmem

/-! ## The least value at points -/

/-- All demands hold at a point. -/
def AllHold (ρ : String → ℚ) (demands : List (Demand d)) (x : Label → ℚ) : Prop :=
  ∀ demand ∈ demands, demand.relation.Holds (demand.polynomial.eval ρ x)

/-- Whether the demands hold depends on their own variables only. -/
theorem AllHold.congr {x y : Label → ℚ} (h : AllHold ρ demands x)
    (hsame : ∀ v, (∃ demand ∈ demands, v ∈ demand.polynomial.vars) → y v = x v) :
    AllHold ρ demands y := by
  intro demand hmem
  rw [eval_congr fun v hv => hsame v ⟨demand, hmem, hv⟩]
  exact h demand hmem

/-- A point with the least compiled objective among those where all demands hold has the least base
objective among them, and there the two are the same. -/
theorem IsCharged.isLeast (h : IsCharged ρ m f demands) (hnew : m.SlackIsNew f demands)
    {x : Label → ℚ} (hx : d.IsPoint x) (hall : AllHold ρ demands x)
    (hleast : ∀ y, d.IsPoint y → AllHold ρ demands y →
      m.objective.eval ρ x ≤ m.objective.eval ρ y) :
    f.eval ρ x = m.objective.eval ρ x ∧
      ∀ y, d.IsPoint y → AllHold ρ demands y → m.objective.eval ρ x ≤ f.eval ρ y := by
  have hbelow : ∀ y, d.IsPoint y → AllHold ρ demands y →
      m.objective.eval ρ x ≤ f.eval ρ y := by
    intro y hy hholds
    obtain ⟨z, hz, hzy, heq⟩ := h.attained y hy hholds
    rw [← heq]
    -- the slack bits that were changed occur in no demand
    apply hleast z hz
    apply hholds.congr
    rintro v ⟨demand, hmem, hv⟩
    exact hzy v fun hslack => (hnew v hslack).2 demand hmem hv
  exact ⟨le_antisymm (h.le x hx) (hbelow x hx hall), hbelow⟩

/-! ## Solutions without slack bits -/

/-- An assignment of the enumerated variables that are no slack bits. -/
structure IsCandidate (m : Model d) (a : Assignment Label) : Prop where
  sorted : a.Sorted
  keys : ∀ v, v ∈ Table.keys a ↔ v ∈ m.enumeratedVariables ∧ ¬ m.IsSlackBit v
  values : ∀ e ∈ a, d.contains e.2

theorem IsSlackBit.contains {v : Label} (h : m.IsSlackBit v) : m.objective.ancillas.contains v := by
  obtain ⟨constraint, weight, hget⟩ := h
  rw [Table.contains, hget]
  rfl

/-- In a charged model the ancillas are the slack bits. -/
theorem IsCharged.contains_iff (h : IsCharged ρ m f demands) {v : Label} :
    m.objective.ancillas.contains v ↔ m.IsSlackBit v :=
  ⟨h.ancillas v, IsSlackBit.contains⟩

/-- A candidate sets the enumerated variables that are not slack. -/
theorem IsCandidate.isOn {a : Assignment Label} (h : m.IsCandidate a) :
    a.IsOn d fun v => v ∈ m.enumeratedVariables ∧ ¬ m.IsSlackBit v :=
  ⟨h.sorted, h.keys, h.values⟩

/-- A candidate covers variables that are enumerated and not slack. -/
theorem IsCandidate.covers {a : Assignment Label} (h : m.IsCandidate a) {vars : List Label}
    (hvars : ∀ v ∈ vars, v ∈ m.enumeratedVariables ∧ ¬ m.IsSlackBit v) :
    Assignment.Covers d vars a :=
  h.isOn.covers hvars

/-- Such an assignment is determined by its point. -/
theorem IsCandidate.ext {a b : Assignment Label} (ha : m.IsCandidate a) (hb : m.IsCandidate b)
    (h : ∀ v ∈ m.enumeratedVariables, ¬ m.IsSlackBit v → a.point d v = b.point d v) : a = b :=
  ha.isOn.ext hb.isOn fun v hv => h v hv.1 hv.2

/-- What is found is an assignment of these variables. -/
theorem IsCharged.isCandidate (h : IsCharged ρ m f demands) (code : ℕ) :
    m.IsCandidate (m.withoutAncillas (decode d m.enumeratedVariables code)) := by
  have hon : (m.withoutAncillas (decode d m.enumeratedVariables code)).IsOn d
      fun v => v ∈ m.enumeratedVariables ∧ m.objective.ancillas.contains v = false :=
    isOn_withoutAncillas (isOn_decode (nodup_enumeratedVariables h.wellFormed.distinct))
  refine ⟨hon.sorted, fun v => (hon.keys v).trans (and_congr_right fun _ => ?_), hon.values⟩
  rw [Bool.eq_false_iff, Ne, h.contains_iff]

/-- What is found at a code has its values at the variables that are no slack bits. -/
theorem IsCharged.point_withoutAncillas (h : IsCharged ρ m f demands) {code : ℕ} {v : Label}
    (hv : v ∈ m.enumeratedVariables) (hslack : ¬ m.IsSlackBit v) :
    (m.withoutAncillas (decode d m.enumeratedVariables code)).point d v =
      codePoint d m.enumeratedVariables code v := by
  have hkept : m.objective.ancillas.contains v = false :=
    Bool.eq_false_iff.mpr fun hcontains => hslack (h.ancillas v hcontains)
  rw [← point_decode (nodup_enumeratedVariables h.wellFormed.distinct) hv]
  exact Assignment.point_congr (get?_withoutAncillas (sorted_decode _ _ _) hkept)

/-! ## The search -/

/-- The polynomials of the problem have at what is found the values at the point of the code. -/
theorem IsCharged.eval_withoutAncillas (h : IsCharged ρ m f demands) {q : Polynomial d Label}
    (hq : ∀ v ∈ q.vars, v ∈ m.enumeratedVariables ∧ ¬ m.IsSlackBit v) (code : ℕ) :
    q.eval ρ ((m.withoutAncillas (decode d m.enumeratedVariables code)).point d) =
      q.eval ρ (codePoint d m.enumeratedVariables code) :=
  eval_congr fun v hv => h.point_withoutAncillas (hq v hv).1 (hq v hv).2

section Codes

variable (hcharged : IsCharged ρ m f demands)
  (hvars : ∀ v, (v ∈ f.vars ∨ ∃ demand ∈ demands, v ∈ demand.polynomial.vars) →
    v ∈ m.enumeratedVariables ∧ ¬ m.IsSlackBit v)

include hcharged hvars

/-- An assignment at which all demands hold is found at a code whose slack bits have the values at which
the compiled objective is the base objective. -/
theorem exists_code_of_isCandidate {a : Assignment Label} (ha : m.IsCandidate a)
    (hholds : AllHold ρ demands (a.point d)) :
    ∃ code < 2 ^ m.enumeratedVariables.length,
      m.withoutAncillas (decode d m.enumeratedVariables code) = a ∧
      AllHold ρ demands (codePoint d m.enumeratedVariables code) ∧
      m.objective.eval ρ (codePoint d m.enumeratedVariables code) = f.eval ρ (a.point d) := by
  obtain ⟨z, hz, hza, heq⟩ := hcharged.attained _ (Assignment.isPoint_point d a) hholds
  obtain ⟨code, hlt, hsame⟩ := exists_code hz m.enumeratedVariables
  have hpoint : ∀ v ∈ m.enumeratedVariables, ¬ m.IsSlackBit v →
      codePoint d m.enumeratedVariables code v = a.point d v := fun v hv hslack =>
    (hsame v hv).trans (hza v hslack)
  refine ⟨code, hlt, (hcharged.isCandidate code).ext ha fun v hv hslack => ?_,
    hholds.congr fun v hv => ?_, ?_⟩
  · rw [hcharged.point_withoutAncillas hv hslack, hpoint v hv hslack]
  · exact hpoint v (hvars v (.inr hv)).1 (hvars v (.inr hv)).2
  · rw [← heq]
    exact eval_congr fun v hv => hsame v
      (mem_enumeratedVariables_of_mem_labels (hcharged.wellFormed.mem_labels hv))

variable (hbuilt : Built f demands m) (hdemands : ∀ demand ∈ demands, demand.IsAcceptable)

include hbuilt hdemands

/-- The search admits the codes at whose points all demands hold. -/
theorem isSolutionValid_decode (code : ℕ) :
    m.isSolutionValid (decode d m.enumeratedVariables code) ↔
      AllHold ρ demands (codePoint d m.enumeratedVariables code) := by
  have hnodup := nodup_enumeratedVariables hcharged.wellFormed.distinct
  have hcovers : ∀ demand ∈ demands, Assignment.Covers d demand.polynomial.vars
      (decode d m.enumeratedVariables code) := fun demand hmem =>
    (covers_decode hnodup).mono fun v hv => (hvars v (.inr ⟨demand, hmem, hv⟩)).1
  have hcheck : m.isSolutionValid (decode d m.enumeratedVariables code) ↔
      m.Satisfies (decode d m.enumeratedVariables code) := by
    apply isSolutionValid_iff <;> rw [hbuilt.constraints, List.forall_mem_map]
    · exact fun demand hmem => (hdemands demand hmem).wellFormed.normal
    · exact hcovers
    · intro demand hmem q hq
      obtain ⟨v, hv, n, rfl⟩ := (hdemands demand hmem).whole _ (hcovers demand hmem)
      rw [Demand.toConstraint, hv] at hq
      obtain rfl := Number.exact.inj (Except.ok.inj hq)
      exact Binary64.kept_intCast n
  rw [hcheck, hbuilt.satisfies_iff ρ fun demand hmem => (hdemands demand hmem).wellFormed]
  unfold AllHold
  apply forall₂_congr
  intro demand hmem
  have hpoint : demand.polynomial.eval ρ ((decode d m.enumeratedVariables code).point d) =
      demand.polynomial.eval ρ (codePoint d m.enumeratedVariables code) :=
    eval_congr fun v hv => point_decode hnodup (hvars v (.inr ⟨demand, hmem, hv⟩)).1
  rw [hpoint, and_iff_right (hcovers demand hmem)]

/-- The search finds the codes at whose points all demands hold with the least compiled objective. -/
theorem exists_codes (hlength : m.enumeratedVariables.length ≤ enumerationLimit)
    (hfeasible : ∃ x, d.IsPoint x ∧ AllHold ρ demands x) :
    ∃ (v : ℚ) (codes : List ℕ), m.objective.minimizeWhere m.enumeratedVariables true
        m.isSolutionValid = .ok (some (.exact v), codes.map (decode d m.enumeratedVariables)) ∧
      codes ≠ [] ∧
      (∀ code, code ∈ codes ↔ code < 2 ^ m.enumeratedVariables.length ∧
        AllHold ρ demands (codePoint d m.enumeratedVariables code) ∧
        m.objective.eval ρ (codePoint d m.enumeratedVariables code) = v) ∧
      ∀ y, d.IsPoint y → AllHold ρ demands y → v ≤ m.objective.eval ρ y := by
  have hobjective : ∀ v ∈ m.objective.vars, v ∈ m.enumeratedVariables := fun v hv =>
    mem_enumeratedVariables_of_mem_labels (hcharged.wellFormed.mem_labels hv)
  have hadmitted := isSolutionValid_decode hcharged hvars hbuilt hdemands
  -- every point at which the demands hold agrees with that of an admitted code
  have hcode : ∀ y, d.IsPoint y → AllHold ρ demands y →
      ∃ code < 2 ^ m.enumeratedVariables.length,
        m.isSolutionValid (decode d m.enumeratedVariables code) ∧
        m.objective.eval ρ (codePoint d m.enumeratedVariables code) = m.objective.eval ρ y := by
    intro y hy hholds
    obtain ⟨code, hlt, hsame⟩ := exists_code hy m.enumeratedVariables
    refine ⟨code, hlt, (hadmitted code).mpr (hholds.congr fun v hv => ?_),
      eval_congr fun v hv => hsame v (hobjective v hv)⟩
    exact hsame v (hvars v (.inr hv)).1
  rcases minimizeWhere_cases hcharged.wellFormed ρ hobjective hlength m.isSolutionValid with
    ⟨hrejected, -⟩ | ⟨v, codes, hne, -, hcodes, hleast, hok⟩
  · obtain ⟨x, hx, hholds⟩ := hfeasible
    obtain ⟨code, hlt, hvalid, -⟩ := hcode x hx hholds
    rw [hrejected code hlt] at hvalid
    cases hvalid
  · refine ⟨v, codes, hok true, hne, fun code => by rw [hcodes, hadmitted], fun y hy hholds => ?_⟩
    obtain ⟨code, hlt, hvalid, hvalue⟩ := hcode y hy hholds
    rw [← hvalue]
    exact hleast code hlt hvalid

end Codes

/-- Without parameters, and with weights that are not negative, the search solves the problem: its value is
the least one of the base objective among the assignments that satisfy all constraints, and it finds
exactly the assignments of the enumerated variables, without the slack bits, that satisfy all constraints
and have this value. -/
theorem bruteforce_exact (hbuilt : Built f demands m)
    (hf : f.WellFormed Coefficient.IsRational) (hancillas : f.ancillas = [])
    (hdemands : ∀ demand ∈ demands, demand.IsAcceptable) (hnew : m.SlackIsNew f demands)
    (hroom : HasRoom m.objective.index.labels)
    (hlength : m.enumeratedVariables.length ≤ enumerationLimit) (hfeasible : ∃ a, m.Satisfies a) :
    ∃ (v : ℚ) (sols : List (Assignment Label)), m.bruteforce true = .ok (.exact v, sols) ∧
      (∃ a, Assignment.Covers d f.vars a ∧ m.Satisfies a ∧ f.valueNumber a = .ok (.exact v)) ∧
      (∀ a, Assignment.Covers d f.vars a → m.Satisfies a →
        ∃ w : ℚ, f.valueNumber a = .ok (.exact w) ∧ v ≤ w) ∧
      ∀ a, a ∈ sols ↔ m.IsCandidate a ∧ m.Satisfies a ∧ f.valueNumber a = .ok (.exact v) := by
  have hcharged := hbuilt.isCharged (ρ := fun _ => 0) hf hancillas hdemands hroom hnew
  have hsatisfies := fun {a} => hbuilt.satisfies_iff (fun _ => 0)
    (fun demand hmem => (hdemands demand hmem).wellFormed) (a := a)
  -- the variables of the problem are enumerated, and none of them is a slack bit
  have hvars : ∀ v, (v ∈ f.vars ∨ ∃ demand ∈ demands, v ∈ demand.polynomial.vars) →
      v ∈ m.enumeratedVariables ∧ ¬ m.IsSlackBit v := by
    intro v hv
    refine ⟨hbuilt.mem_enumeratedVariables hf hv, fun hslack => ?_⟩
    obtain ⟨hbase, hdemand⟩ := hnew v hslack
    exact hv.elim hbase fun ⟨demand, hmem, hv⟩ => hdemand demand hmem hv
  have hholds : ∀ {a}, m.Satisfies a → AllHold (fun _ => 0) demands (a.point d) := fun h demand hmem =>
    (hsatisfies.mp h demand hmem).2
  obtain ⟨start, hstart⟩ := hfeasible
  obtain ⟨v, codes, hok, hne, hcodes, hleast⟩ := exists_codes hcharged hvars hbuilt hdemands hlength
    ⟨_, Assignment.isPoint_point d start, hholds hstart⟩
  -- at the codes that are found the base objective has the value too, and it is not below elsewhere
  have hbase : ∀ code ∈ codes, f.eval (fun _ => 0) (codePoint d m.enumeratedVariables code) = v ∧
      ∀ y, d.IsPoint y → AllHold (fun _ => 0) demands y → v ≤ f.eval (fun _ => 0) y := by
    intro code hcode
    obtain ⟨-, hall, rfl⟩ := (hcodes code).mp hcode
    exact hcharged.isLeast hnew (fun v => Domain.isValue_ofBit d _) hall hleast
  have hfound : ∀ code ∈ codes,
      m.IsCandidate (m.withoutAncillas (decode d m.enumeratedVariables code)) ∧
      m.Satisfies (m.withoutAncillas (decode d m.enumeratedVariables code)) ∧
      f.valueNumber (m.withoutAncillas (decode d m.enumeratedVariables code)) = .ok (.exact v) := by
    intro code hcode
    have hcandidate := hcharged.isCandidate code
    refine ⟨hcandidate, hsatisfies.mpr fun demand hmem => ?_, ?_⟩
    · have hdemand := fun v hv => hvars v (.inr ⟨demand, hmem, hv⟩)
      rw [hcharged.eval_withoutAncillas hdemand]
      exact ⟨hcandidate.covers hdemand, ((hcodes code).mp hcode).2.1 demand hmem⟩
    · have hobjective := fun v hv => hvars v (.inl hv)
      rw [valueNumber_eq hf (hcandidate.covers hobjective) fun _ => 0,
        hcharged.eval_withoutAncillas hobjective, (hbase code hcode).1]
  obtain ⟨first, hfirst⟩ := List.exists_mem_of_ne_nil codes hne
  refine ⟨v, _, by rw [bruteforce, hok]; rfl, ?_, fun a ha hsat => ?_, fun a => ?_⟩
  · obtain ⟨hcandidate, hsat, hvalue⟩ := hfound first hfirst
    exact ⟨_, hcandidate.covers fun v hv => hvars v (.inl hv), hsat, hvalue⟩
  · refine ⟨_, valueNumber_eq hf ha fun _ => 0, (hbase first hfirst).2 _ ?_ (hholds hsat)⟩
    exact Assignment.isPoint_point d a
  rw [List.map_map, List.mem_map]
  constructor
  · rintro ⟨code, hcode, rfl⟩
    exact hfound code hcode
  · rintro ⟨hcandidate, hsat, hvalue⟩
    obtain ⟨code, hlt, hdecode, hall, heq⟩ :=
      exists_code_of_isCandidate hcharged hvars hcandidate (hholds hsat)
    rw [valueNumber_eq hf (hcandidate.covers fun v hv => hvars v (.inl hv)) fun _ => 0] at hvalue
    have hv := Number.exact.inj (Except.ok.inj hvalue)
    exact ⟨code, (hcodes code).mpr ⟨hlt, hall, heq.trans hv⟩, hdecode⟩

/-- The demand that the sum of two variables is at least 1, with a weight that is too small: where both
variables are 0, the penalty is a quarter. -/
def weakDemand : Demand .binary :=
  { coverDemand with options := { weight := .num (.exact (1 / 4)) } }

def weakModel : Model .binary :=
  ((ofObjective coverObjective).addConstraint weakDemand.relation weakDemand.polynomial
    weakDemand.options).1

theorem isAcceptable_weakDemand : weakDemand.IsAcceptable :=
  ⟨isSuitable_coverDemand.wellFormed, isSuitable_coverDemand.whole, isSuitable_coverDemand.ancillas,
    rfl, 1 / 4, rfl, by norm_num⟩

/-- The search finds the covers with one element nevertheless. -/
theorem bruteforce_exact_weak :
    ∃ sols, weakModel.bruteforce true = .ok (.exact 1, sols) ∧
      ∀ a, a ∈ sols ↔ weakModel.IsCandidate a ∧ weakModel.Satisfies a ∧
        coverObjective.valueNumber a = .ok (.exact 1) := by
  have hbuilt : Built coverObjective [weakDemand] weakModel :=
    .add .base (Prod.ext rfl (by decide +kernel :
      ((ofObjective coverObjective).addConstraint weakDemand.relation weakDemand.polynomial
        weakDemand.options).2 = .ok none))
  have hsatisfies : weakModel.Satisfies [(.name "x", 1), (.name "y", 1)] := by
    have hsame : weakModel.constraints = coverModel.constraints :=
      hbuilt.constraints.trans built_coverModel.constraints.symm
    rw [Satisfies, hsame]
    exact satisfies_coverModel
  obtain ⟨v, sols, hok, -, -, hsols⟩ := bruteforce_exact hbuilt wellFormed_coverObjective
    (by decide +kernel) (List.forall_mem_singleton.mpr isAcceptable_weakDemand)
    (slackIsNew_of_forall (by decide +kernel)) (by decide +kernel) (by decide +kernel) ⟨_, hsatisfies⟩
  have hvalue : (weakModel.bruteforce true).map (·.1) = .ok (.exact 1) := by decide +kernel
  rw [hok] at hvalue
  obtain rfl := Number.exact.inj (Except.ok.inj hvalue)
  exact ⟨sols, hok, hsols⟩

end Model

end PseudoBoolean
