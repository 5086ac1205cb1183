import PseudoBoolean.Proofs.Model.Reachable

/-!
# Slack over whole runs

`Run m` says that `m` comes from an objective by changes in place (`Edit`), substitutions and constraints,
in any order. Ancillas reach a model in four ways: with the objective that it starts from, with a change,
with a constraint that is penalized and with one that always holds. The first three number them in the
objective, where an inequality looks before it numbers its slack. The last leaves nothing in the objective,
but the next number has passed its ancillas.

So every ancilla that the model knows of is taken (`IsTracked`). Every step keeps this (`IsTracked.edit`,
`IsTracked.substitute`, `IsTracked.addConstraint`), and it holds after every run (`Run.isTracked`). The
slack bits of the next constraint are therefore new (`Run.addsNewSlack`). They need not be all that is
recorded: the records of the constraint's own polynomial come along with its penalty.
-/

namespace PseudoBoolean

open PseudoBoolean.Polynomial

/-! ## Changes in place -/

namespace Polynomial

variable {d : Domain} {V : Type} [Variable V] {p q : Polynomial d V}

/-- The changes of a polynomial in place. Other polynomials that they take up are regular. -/
inductive Edit (p : Polynomial d V) : Polynomial d V → Prop
  | addTerm (vars : List V) (c : Coefficient) : Edit p (p.addTerm vars c)
  | setTerm (vars : List V) (c : Coefficient) : Edit p (p.setTerm vars c)
  | update {q : Polynomial d V} : q.Regular Coefficient.Any → Edit p (p.update q)
  | addConstant (c : Coefficient) : Edit p (p.addConstant c)
  | subConstant (c : Coefficient) : Edit p (p.subConstant c)
  | scale (k : Coefficient) : Edit p (p.scale k)
  | add {q : Polynomial d V} : q.Regular Coefficient.Any → Edit p (p + q)
  | sub {q : Polynomial d V} : q.Regular Coefficient.Any → Edit p (p - q)
  | mul {q : Polynomial d V} : q.Regular Coefficient.Any → Edit p (p * q)
  | pow (n : ℕ) : Edit p (p.pow n)
  | div {q : Polynomial d V} {k : Coefficient} : p.div k = .ok q → Edit p q
  | floorDiv {q : Polynomial d V} {k : Coefficient} : p.floorDiv k = .ok q → Edit p q
  | normalize : Edit p p.normalize.1
  | setMapping (pairs : List (V × ℕ)) : Edit p (p.setMapping pairs).1
  | substitute (values : Table String Coefficient) : Edit p (p.substitute values)

/-- No change takes a number away from a variable. -/
theorem Edit.labels_subset (h : p.Edit q) : p.index.labels ⊆ q.index.labels := by
  have hquotient : ∀ {k : Coefficient}, p.div k = .ok q → p.index.labels ⊆ q.index.labels :=
    fun h => (frame_tryMapCoefficients (tryMapCoefficients_of_div h)).1 ▸ List.Subset.refl _
  cases h with
  | addTerm vars c => exact (labels_prefix_accumulate p _ c).subset
  | setTerm vars c => exact (labels_prefix_assign p _ c).subset
  | update _ => exact (labels_prefix_update p _).subset
  | addConstant c => exact (labels_prefix_accumulate p [] c).subset
  | subConstant c => exact (labels_prefix_accumulate p [] _).subset
  | scale k => exact (labels_prefix_mapCoefficients _ p).subset
  | add _ => exact (labels_prefix_add p _).subset
  | @sub q _ =>
    rw [sub_eq]
    exact ((labels_prefix_adopt p q).trans (labels_prefix_accumulateList _ _)).subset
  | mul _ => exact (labels_prefix_mul p _).subset
  | pow n => exact (labels_prefix_pow p n).subset
  | div h => exact hquotient h
  | floorDiv h =>
    exact (frame_tryMapCoefficients (tryMapCoefficients_of_floorDiv h)).1 ▸ List.Subset.refl _
  | normalize =>
    rcases normalize_cases p with h | ⟨_, _, -, -, hdiv⟩
    · exact h.symm ▸ List.Subset.refl _
    · exact hquotient hdiv
  | setMapping pairs => exact fun v hv => ((frame_setMapping p pairs).1 v).mpr hv
  | substitute values => exact (labels_prefix_mapCoefficients _ p).subset

/-- A regular polynomial stays regular when it is edited. -/
theorem Edit.regular (hp : p.Regular Coefficient.Any) (h : p.Edit q) :
    q.Regular Coefficient.Any := by
  cases h with
  | addTerm vars c => exact hp.addTerm vars trivial
  | setTerm vars c => exact hp.setTerm vars trivial
  | update hq => exact hp.update hq
  | addConstant c => exact hp.addConstant trivial
  | subConstant c => exact hp.subConstant trivial
  | scale k => exact hp.scale trivial
  | add hq => exact hp.add hq
  | sub hq => exact hp.sub hq
  | mul hq => exact hp.mul hq
  | pow n => exact hp.pow n
  | div h => exact hp.tryMapCoefficients (fun _ _ _ _ => trivial) (tryMapCoefficients_of_div h)
  | floorDiv h =>
    exact hp.tryMapCoefficients (fun _ _ _ _ => trivial) (tryMapCoefficients_of_floorDiv h)
  | normalize =>
    rcases normalize_cases p with h | ⟨_, _, -, -, hdiv⟩
    · exact h.symm ▸ hp
    · exact hp.tryMapCoefficients (fun _ _ _ _ => trivial) (tryMapCoefficients_of_div hdiv)
  | setMapping pairs => exact hp.setMapping pairs
  | substitute values => exact hp.mapCoefficients fun _ _ => trivial

end Polynomial

namespace Model

variable {d : Domain} {m after : Model d} {r : Relation} {p q : Polynomial d Label}
  {options : ConstraintOptions} {diagnostic : Option Diagnostic} {v : Label}

/-- The models that come from a regular objective by changes of the objective in place, substitutions and
constraints. A change or a constraint that is refused counts as well. -/
inductive Run : Model d → Prop
  | start {f : Polynomial d Label} : f.Regular Coefficient.Any → Run (ofObjective f)
  | edit {m : Model d} {q : Polynomial d Label} :
      Run m → m.objective.Edit q → Run { m with objective := q }
  | substitute {m : Model d} (values : Table String Coefficient) : Run m → Run (m.substitute values)
  | addConstraint {m : Model d} {p : Polynomial d Label} (r : Relation) (options : ConstraintOptions) :
      Run m → p.Regular Coefficient.Any → HasRoom p.index.labels →
      Run (m.addConstraint r p options).1

theorem Run.empty : Run (empty : Model d) :=
  .start (f := .empty) .empty

/-- Adding a constraint records no other than this one. -/
theorem mem_constraints_addConstraint {c : Constraint d}
    (hc : c ∈ (m.addConstraint r p options).1.constraints) : c ∈ m.constraints ∨ c = ⟨r, p⟩ := by
  rcases addConstraint_cases m r p options with
    ⟨refused, e, hrefused, herror⟩ | ⟨compiled, diagnostic, hcompiled, hok⟩
  · rw [herror] at hc
    cases hrefused <;> exact .inl hc
  · rw [hok, recordConstraint, hcompiled.constraints] at hc
    exact (List.mem_append.mp hc).imp_right List.mem_singleton.mp

/-- After every run the objective and all recorded constraints are regular. -/
theorem Run.regular (h : Run m) : m.objective.Regular Coefficient.Any ∧
    ∀ c ∈ m.constraints, c.polynomial.Regular Coefficient.Any := by
  induction h with
  | start hf => exact ⟨hf, fun _ hc => absurd hc List.not_mem_nil⟩
  | edit _ hedit ih => exact ⟨hedit.regular ih.1, ih.2⟩
  | substitute values _ ih =>
    exact ⟨ih.1.mapCoefficients fun _ _ => trivial, List.forall_mem_map.mpr fun c hc =>
      (ih.2 c hc).mapCoefficients fun _ _ => trivial⟩
  | addConstraint r options _ hp _ ih =>
    refine ⟨regular_addConstraint ih.1 hp trivial r, fun c hc => ?_⟩
    rcases mem_constraints_addConstraint hc with hc | rfl
    · exact ih.2 c hc
    · exact hp

/-! ## What a constraint does to labels and numbers -/

/-- Adding a constraint loses no label of the objective, whether it succeeds or not. -/
theorem labels_subset_addConstraint (m : Model d) (r : Relation) (p : Polynomial d Label)
    (options : ConstraintOptions) :
    m.objective.index.labels ⊆ (m.addConstraint r p options).1.objective.index.labels := by
  rcases addConstraint_cases m r p options with
    ⟨refused, e, hrefused, herror⟩ | ⟨compiled, diagnostic, hcompiled, hok⟩
  · rw [herror]
    cases hrefused <;> exact List.Subset.refl _
  · rw [hok]
    exact hcompiled.labels_subset

/-- With room for its labels, slack does not lower the next free number. -/
theorem nextAncilla_le_withSlack {range : ℕ}
    (hroom : HasRoom (m.withSlack q range options).objective.index.labels) :
    m.nextAncilla ≤ (m.withSlack q range options).nextAncilla := by
  have hnext : (m.withSlack q range options).nextAncilla = m.nextAncilla +
      UInt32.ofNat (Slack.parts range options.logarithmic).length := rfl
  rw [UInt32.le_iff_toNat_le, hnext, Slack.toNat_add_ofNat (no_overflow_withSlack hroom)]
  exact Nat.le_add_right _ _

/-- The next number never falls. -/
theorem Compiled.nextAncilla_le (h : Compiled m r p options after)
    (hroom : HasRoom after.objective.index.labels) : m.nextAncilla ≤ after.nextAncilla := by
  cases h with
  | equality => exact UInt32.le_refl _
  | always => exact nextAncilla_le_skipAncillas
  | never => exact nextAncilla_le_skipAncillas
  | slack => exact UInt32.le_trans nextAncilla_le_skipAncillas (nextAncilla_le_withSlack hroom)

/-- After skipping the ancillas of a polynomial, the next number is above all of them. -/
theorem lt_nextAncilla_skipAncillas (hroom : HasRoom p.index.labels) {n : UInt32}
    (hn : .ancilla n ∈ p.index.labels) : n < (m.skipAncillas p).nextAncilla := by
  have hlt := UInt32.lt_iff_toNat_lt.mp (lt_nextFree hn (hroom n hn))
  rw [UInt32.lt_iff_toNat_lt, skipAncillas, toNat_max, toNat_max]
  omega

/-- An ancilla that the model cannot give to a slack bit any more: the objective has numbered it, or the
next number has passed it. -/
def IsTaken (m : Model d) (v : Label) : Prop :=
  v ∈ m.objective.index.labels ∨ ∃ n, v = .ancilla n ∧ n < m.nextAncilla

/-- A label that is taken stays taken. -/
theorem IsTaken.mono (h : m.IsTaken v)
    (hlabels : m.objective.index.labels ⊆ after.objective.index.labels)
    (hnext : m.nextAncilla ≤ after.nextAncilla) : after.IsTaken v := by
  rcases h with h | ⟨n, rfl, hn⟩
  · exact .inl (hlabels h)
  · exact .inr ⟨n, rfl, UInt32.lt_of_lt_of_le hn hnext⟩

/-- The ancillas of a constraint are taken once it is compiled. -/
theorem Compiled.isTaken (h : Compiled m r p options after) (hroom : HasRoom p.index.labels)
    {n : UInt32} (hn : .ancilla n ∈ p.index.labels) : after.IsTaken (.ancilla n) := by
  have hframe : ∀ lower upper, p.index.labels ⊆ (atMostZero r p lower upper).1.index.labels :=
    fun lower upper => (atMostZero_frame r p lower upper).2.1.subset
  cases h with
  | equality => exact .inl ((labels_subset_addPenalty m p _).2 hn)
  | always => exact .inr ⟨n, rfl, lt_nextAncilla_skipAncillas hroom hn⟩
  | never =>
    exact .inl ((labels_subset_addPenalty (m.skipAncillas p) _ _).2 (hframe _ _ hn))
  | slack =>
    exact .inl ((labels_subset_withSlack (m.skipAncillas p) _ _ _).2.1 (hframe _ _ hn))

/-- A slack bit is none of the labels that are taken. -/
theorem Compiled.not_isTaken (h : Compiled m r p options after)
    (hroom : HasRoom after.objective.index.labels) (hv : v ∈ m.slackLabels p after) :
    ¬ m.IsTaken v := by
  rintro (hlabel | ⟨n, rfl, hn⟩)
  · exact (h.notMem_labels hroom hv).1 hlabel
  · obtain ⟨k, hk, hle⟩ := Slack.isAncilla_of_mem_labels hv
    obtain rfl := Label.ancilla.inj hk
    exact UInt32.not_le.mpr hn (UInt32.le_trans nextAncilla_le_skipAncillas hle)

/-! ## The invariant -/

/-- The objective and all recorded constraints are regular, and all ancillas of the constraints are
taken. -/
structure IsTracked (m : Model d) : Prop where
  objective : m.objective.Regular Coefficient.Any
  constraints : ∀ c ∈ m.constraints, c.polynomial.Regular Coefficient.Any
  taken : ∀ c ∈ m.constraints, ∀ n, .ancilla n ∈ c.polynomial.index.labels → m.IsTaken (.ancilla n)

/-- A model that is only an objective is tracked. -/
theorem IsTracked.ofObjective {f : Polynomial d Label} (hf : f.Regular Coefficient.Any) :
    (ofObjective f).IsTracked where
  objective := hf
  constraints _ hc := absurd hc List.not_mem_nil
  taken _ hc := absurd hc List.not_mem_nil

/-- What is taken stays taken. -/
theorem IsTracked.grow (hm : m.IsTracked) (hobjective : after.objective.Regular Coefficient.Any)
    (hconstraints : after.constraints = m.constraints)
    (hlabels : m.objective.index.labels ⊆ after.objective.index.labels)
    (hnext : m.nextAncilla ≤ after.nextAncilla) : after.IsTracked where
  objective := hobjective
  constraints := hconstraints ▸ hm.constraints
  taken c hc n hn := (hm.taken c (hconstraints ▸ hc) n hn).mono hlabels hnext

/-- Editing the objective keeps the model tracked. -/
theorem IsTracked.edit (hm : m.IsTracked) (h : m.objective.Edit q) :
    ({ m with objective := q } : Model d).IsTracked :=
  hm.grow (h.regular hm.objective) rfl h.labels_subset (UInt32.le_refl _)

/-- Parameters get values in the constraints too, which keep their variables. -/
theorem IsTracked.substitute (hm : m.IsTracked) (values : Table String Coefficient) :
    (m.substitute values).IsTracked where
  objective := hm.objective.mapCoefficients fun _ _ => trivial
  constraints := List.forall_mem_map.mpr fun c hc =>
    (hm.constraints c hc).mapCoefficients fun _ _ => trivial
  taken := List.forall_mem_map.mpr fun c hc n hn => by
    rw [Polynomial.substitute, index_mapCoefficients _ (hm.constraints c hc).toWellFormed] at hn
    exact (hm.taken c hc n hn).mono (labels_prefix_mapCoefficients _ m.objective).subset
      (UInt32.le_refl _)

/-- Recording a constraint whose ancillas are taken keeps the model tracked. -/
theorem IsTracked.recordConstraint (hm : m.IsTracked) (hp : p.Regular Coefficient.Any)
    (htaken : ∀ n, .ancilla n ∈ p.index.labels → m.IsTaken (.ancilla n)) (r : Relation)
    (diagnostic : Option Diagnostic) : (m.recordConstraint r p diagnostic).IsTracked where
  objective := hm.objective
  constraints := List.forall_mem_append.mpr ⟨hm.constraints, List.forall_mem_singleton.mpr hp⟩
  taken := List.forall_mem_append.mpr ⟨hm.taken, List.forall_mem_singleton.mpr htaken⟩

/-- Adding a constraint keeps the model tracked, whether it succeeds or not, while there is room for
labels. -/
theorem IsTracked.addConstraint (hm : m.IsTracked) (hp : p.Regular Coefficient.Any)
    (hroom : HasRoom p.index.labels) (r : Relation) (options : ConstraintOptions)
    (hroom' : HasRoom (m.addConstraint r p options).1.objective.index.labels) :
    (m.addConstraint r p options).1.IsTracked := by
  rcases addConstraint_cases m r p options with
    ⟨refused, e, hrefused, herror⟩ | ⟨compiled, diagnostic, hcompiled, hok⟩
  · rw [herror]
    cases hrefused with
    | early => exact hm
    | late => exact hm.grow hm.objective rfl (List.Subset.refl _) nextAncilla_le_skipAncillas
  · rw [hok] at hroom' ⊢
    have hgrown : compiled.IsTracked :=
      hm.grow (hcompiled.regular hm.objective hp trivial) hcompiled.constraints
        hcompiled.labels_subset (hcompiled.nextAncilla_le hroom')
    exact hgrown.recordConstraint hp (fun n => hcompiled.isTaken hroom) r diagnostic

/-- The invariant of all runs. The labels of an objective never leave it, so it is enough that they leave
room in the end. -/
theorem Run.isTracked (h : Run m) (hroom : HasRoom m.objective.index.labels) : m.IsTracked := by
  induction h with
  | start hf => exact .ofObjective hf
  | edit _ hedit ih =>
    exact (ih fun n hn => hroom n (hedit.labels_subset hn)).edit hedit
  | @substitute m values _ ih =>
    refine (ih fun n hn => hroom n ?_).substitute values
    exact (labels_prefix_mapCoefficients _ m.objective).subset hn
  | @addConstraint m p r options _ hp hroom' ih =>
    refine (ih fun n hn => hroom n ?_).addConstraint hp hroom' r options hroom
    exact labels_subset_addConstraint m r p options hn

/-! ## The slack of the next constraint -/

/-- What a constraint does to the ancillas of a model: its slack bits are distinct and new, each is
recorded with its weight and the position of the constraint, and the only other records that are added are
those of its polynomial, for labels that had none. -/
structure AddsNewSlack (m : Model d) (r : Relation) (p : Polynomial d Label)
    (options : ConstraintOptions) (after : Model d) : Prop where
  distinct : (m.slackLabels p after).Nodup
  notMem_objective : ∀ v ∈ m.slackLabels p after, v ∉ m.objective.index.labels
  notMem_ancillas : ∀ v ∈ m.slackLabels p after, v ∉ m.objective.ancillas.keys
  notMem_constraint : ∀ v ∈ m.slackLabels p after, v ∉ p.index.labels
  notMem_constraints : ∀ v ∈ m.slackLabels p after, ∀ c ∈ m.constraints,
    v ∉ c.polynomial.index.labels
  position : after.constraints[m.constraints.length]? = some ⟨r, p⟩
  /-- There is one slack bit for each weight. -/
  recorded : ∃ bits : List (Label × ℕ), bits.map (·.1) = m.slackLabels p after ∧
    bits.map (·.2) = slackWeights r p options ∧
    ∀ e ∈ bits, after.objective.ancillas.get? e.1 = some (.slack m.constraints.length (.ofInt e.2))
  others : ∀ v ∉ m.slackLabels p after,
    after.objective.ancillas.get? v = m.objective.ancillas.get? v ∨
      m.objective.ancillas.get? v = none ∧
        after.objective.ancillas.get? v = p.ancillas.get? v

/-- After every run, a constraint that is accepted adds new slack bits and records them all. -/
theorem Run.addsNewSlack (hm : Run m) (hp : p.Regular Coefficient.Any)
    (hadd : m.addConstraint r p options = (after, .ok diagnostic))
    (hroom : HasRoom after.objective.index.labels) : m.AddsNewSlack r p options after := by
  obtain ⟨compiled, hcompiled, rfl⟩ := exists_compiled hadd
  have htracked := hm.isTracked fun n hn => hroom n (hcompiled.labels_subset hn)
  obtain ⟨hrecorded, hothers⟩ := hcompiled.records hp.sorted hroom
  have hnew : ∀ v ∈ m.slackLabels p compiled, v ∉ m.objective.index.labels ∧ v ∉ p.index.labels :=
    fun v hv => hcompiled.notMem_labels hroom hv
  have hposition : (compiled.recordConstraint r p diagnostic).constraints =
      m.constraints ++ [⟨r, p⟩] := by
    rw [Model.recordConstraint, hcompiled.constraints]
  refine ⟨Slack.nodup_labels _ _, fun v hv => (hnew v hv).1, fun v hv hkey => ?_,
    fun v hv => (hnew v hv).2, fun v hv c hc hlabel => ?_, by simp [hposition], hrecorded, hothers⟩
  · obtain ⟨origin, hmem⟩ := Table.mem_keys.mp hkey
    exact (hnew v hv).1 (htracked.objective.recorded _ hmem)
  · obtain ⟨n, rfl, -⟩ := Slack.isAncilla_of_mem_labels hv
    exact hcompiled.not_isTaken hroom hv (htracked.taken c hc n hlabel)

/-- A model after a constraint that always holds, on an ancilla that the objective does not have. -/
def afterSilent : Model .binary :=
  ((ofObjective (ofTerms [([.name "x"], 1), ([.ancilla 7], 1)])).addConstraint .le
    (ofTerms [([.ancilla 20], -1)]) {}).1

/-- Two variables are not both one. -/
def atMostOne : Polynomial .binary Label :=
  ofTerms [([.name "x"], 1), ([.name "y"], 1), ([], -1)]

/-- Its slack bit comes after that ancilla. -/
theorem Run.addsNewSlack_afterSilent :
    ∃ after, afterSilent.slackLabels atMostOne after = [.ancilla 21] ∧
      afterSilent.AddsNewSlack .le atMostOne {} after := by
  have hrun : Run afterSilent :=
    .addConstraint .le {} (.start (.ofTerms fun _ _ => trivial)) (.ofTerms fun _ _ => trivial)
      (by decide +kernel)
  have hok : (afterSilent.addConstraint .le atMostOne {}).2 = .ok none := by decide +kernel
  exact ⟨_, by decide +kernel, hrun.addsNewSlack (.ofTerms fun _ _ => trivial)
    (Prod.ext rfl hok) (by decide +kernel)⟩

/-- The objective of a model with one slack bit, which is to be used as a constraint. -/
def withForeignSlack : Polynomial .binary Label :=
  ((empty : Model .binary).addConstraint .le (ofTerms [([.name "x"], 1), ([], -1)])
    { bounds := some (-1, 1) }).1.objective

/-- The constraint has one slack weight, but two records are added: its own slack bit and the one that it
brings along, of a constraint of the other model. -/
theorem addConstraint_brings_record :
    Run (empty : Model .binary) ∧ withForeignSlack.Regular Coefficient.Any ∧
      ∃ after, (empty : Model .binary).addConstraint .le withForeignSlack {} = (after, .ok none) ∧
        HasRoom after.objective.index.labels ∧ slackWeights .le withForeignSlack {} = [1] ∧
        (empty : Model .binary).slackLabels withForeignSlack after = [.ancilla 1] ∧
        (empty : Model .binary).objective.ancillas = [] ∧
        after.objective.ancillas = [(.ancilla 0, .slack 0 1), (.ancilla 1, .slack 0 1)] := by
  have hregular : withForeignSlack.Regular Coefficient.Any :=
    regular_addConstraint (m := (empty : Model .binary)) .empty (.ofTerms fun _ _ => trivial) trivial
      .le
  have hok : ((empty : Model .binary).addConstraint .le withForeignSlack {}).2 = .ok none := by
    decide +kernel
  exact ⟨.empty, hregular, _, Prod.ext rfl hok, by decide +kernel, by decide +kernel,
    by decide +kernel, rfl, by decide +kernel⟩

end Model

end PseudoBoolean
