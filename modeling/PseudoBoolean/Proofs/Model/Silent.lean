import PseudoBoolean.Proofs.Model.Diagnostics
import PseudoBoolean.Proofs.Model.Reachable
import PseudoBoolean.Proofs.Model.Search

/-!
# Constraints that leave nothing in the objective

An inequality that its range shows to be always satisfied is recorded, with a diagnostic, and nothing of
it goes into the objective: it is silent there (`isSilent`). Every other constraint leaves a penalty, the
weighted square of a polynomial that stands for it (`Compiled.silent_or_penalty`), and the variables of
that polynomial are numbered even if the weight is zero. So the variables that a model knows of are those
of its objective and the `silentVariables` (`enumeratedVariables_perm`).
-/

namespace PseudoBoolean.Model

open PseudoBoolean.Polynomial

variable {d : Domain} {m after compiled : Model d} {r : Relation} {p : Polynomial d Label}
  {options : ConstraintOptions} {diagnostic : Option Diagnostic} {f : Polynomial d Label}
  {demands : List (Demand d)} {k : ℕ} {v : Label}

/-! ## Penalties -/

/-- The polynomial whose square is the penalty of a constraint: the one that is to be at most zero, or zero
if the constraint is an equation, alone or with a slack. -/
inductive StandsFor (r : Relation) (p : Polynomial d Label) : Polynomial d Label → Prop
  | plain (lower upper : Number) : StandsFor r p (atMostZero r p lower upper).1
  | slack (lower upper : Number) (first : UInt32) (weights : List ℕ) :
      StandsFor r p ((atMostZero r p lower upper).1 + Slack.polynomial d (Slack.bits first weights))

/-- A constraint polynomial with its slack still has the variables of the constraint. -/
theorem StandsFor.labels_subset {q : Polynomial d Label} (h : StandsFor r p q) :
    p.index.labels ⊆ q.index.labels := by
  cases h with
  | plain lower upper => exact (atMostZero_frame r p lower upper).2.1.subset
  | slack lower upper first weights =>
    exact fun v hv =>
      (labels_prefix_add _ _).subset ((atMostZero_frame r p lower upper).2.1.subset hv)

/-- The objective of `after` is that of `m`, apart from records, with a penalty for the constraint. -/
def HasPenalty (m : Model d) (r : Relation) (p : Polynomial d Label) (options : ConstraintOptions)
    (after : Model d) : Prop :=
  ∃ base q, base.terms = m.objective.terms ∧ base.index = m.objective.index ∧ StandsFor r p q ∧
    after.objective = base + (q.pow 2).scale options.weight

/-- A constraint that is compiled leaves the objective, or adds a penalty to it. -/
theorem Compiled.silent_or_penalty (h : Compiled m r p options after) :
    (r ≠ .eq ∧ after.objective = m.objective ∧ ∃ lower upper,
        options.bounds.elim p.bounds .ok = .ok (lower, upper) ∧
          r.classify lower upper = some .alwaysSatisfied) ∨
      HasPenalty m r p options after := by
  cases h with
  | equality hr =>
    subst hr
    exact .inr ⟨m.objective, p, rfl, rfl, .plain 0 0, rfl⟩
  | always hr hbounds hverdict => exact .inl ⟨hr, rfl, _, _, hbounds, hverdict⟩
  | never => exact .inr ⟨m.objective, _, rfl, rfl, .plain _ _, rfl⟩
  | @slack lower upper range =>
    exact .inr ⟨((m.skipAncillas p).withBits range options.logarithmic).objective, _, rfl, rfl,
      .slack lower upper _ _, rfl⟩

/-- Where a penalty was added, the objective has the variables of the constraint. -/
theorem HasPenalty.labels_subset (h : HasPenalty m r p options after) :
    p.index.labels ⊆ after.objective.index.labels := by
  obtain ⟨base, q, -, -, hq, hafter⟩ := h
  rw [hafter]
  exact fun v hv => labels_subset_add _ _ ((labels_prefix_mapCoefficients _ _).subset
    ((labels_prefix_pow q 2).subset (hq.labels_subset hv)))

/-! ## Silent inequalities -/

/-- Whether the constraint at a position is an inequality that is recorded as always satisfied. -/
def isSilent (m : Model d) (k : ℕ) : Bool :=
  m.constraints[k]?.any (·.relation ≠ .eq) &&
    m.diagnostics.any fun report => report.constraint = k ∧ report.verdict = .alwaysSatisfied

/-- A constraint is silent exactly when it is an inequality that was found to hold always. -/
theorem isSilent_iff : m.isSilent k ↔ (∃ c, m.constraints[k]? = some c ∧ c.relation ≠ .eq) ∧
    ∃ report ∈ m.diagnostics, report.constraint = k ∧ report.verdict = .alwaysSatisfied := by
  rw [isSilent, Bool.and_eq_true, Option.any_eq_true, List.any_eq_true]
  simp only [decide_eq_true_eq]

/-- A silent inequality stays silent when further constraints are recorded. -/
theorem isSilent_recordConstraint (hconstraints : after.constraints = m.constraints)
    (hdiagnostics : after.diagnostics = m.diagnostics) (hk : m.isSilent k) :
    (after.recordConstraint r p diagnostic).isSilent k := by
  obtain ⟨⟨c, hc, hrelation⟩, report, hreport, hverdict⟩ := isSilent_iff.mp hk
  have hlt := (List.getElem?_eq_some_iff.mp hc).1
  refine isSilent_iff.mpr ⟨⟨c, ?_, hrelation⟩, report, ?_, hverdict⟩
  · rw [recordConstraint, hconstraints, List.getElem?_append_left hlt, hc]
  · rw [recordConstraint, hdiagnostics]
    exact List.mem_append_left _ hreport

/-- The diagnostic of an accepted inequality is what its range says. -/
theorem diagnostic_of_inequality {lower upper : Number} (hr : r ≠ .eq)
    (hbounds : options.bounds.elim p.bounds .ok = .ok (lower, upper))
    (h : m.addConstraint r p options = (after, .ok diagnostic)) :
    diagnostic = Diagnostic.ofRange? m.constraints.length r lower upper := by
  rw [addConstraint] at h
  swap
  · exact hr
  rw [hbounds] at h
  dsimp only at h
  cases hcompile : (m.skipAncillas p).compileInequality r p lower upper options with
  | error e =>
    rw [hcompile] at h
    cases (Prod.mk.inj h).2
  | ok result =>
    rw [hcompile] at h
    obtain rfl := Except.ok.inj (Prod.mk.inj h).2
    exact diagnostic_of_compileInequality (m := m.skipAncillas p) hcompile

/-- An accepted constraint is silent, or its penalty has been added. Only the range that is judged decides
this. -/
theorem silent_or_penalty_of_addConstraint (h : m.addConstraint r p options = (after, .ok diagnostic)) :
    after.isSilent m.constraints.length ∧ after.objective = m.objective ∧
        (∃ range, options.bounds.elim p.bounds .ok = .ok range) ∨
      HasPenalty m r p options after := by
  obtain ⟨compiled, hcompiled, rfl⟩ := exists_compiled h
  rcases hcompiled.silent_or_penalty with ⟨hr, hobjective, lower, upper, hbounds, hverdict⟩ | hpenalty
  · refine .inl ⟨isSilent_iff.mpr ⟨⟨⟨r, p⟩, ?_, hr⟩,
      ⟨m.constraints.length, r, .alwaysSatisfied, lower, upper⟩, ?_, rfl, rfl⟩, hobjective, _, hbounds⟩
    · rw [recordConstraint, hcompiled.constraints, List.getElem?_concat_length]
    · rw [recordConstraint, diagnostic_of_inequality hr hbounds h, Diagnostic.ofRange?, hverdict]
      exact List.mem_append_right _ (Option.mem_toList.mpr rfl)
  · exact .inr hpenalty

/-- What is known of the constraints so far, and of the new one, is known of all afterwards. -/
theorem forall_constraints_addConstraint {P Q : ℕ → Constraint d → Prop}
    (h : m.addConstraint r p options = (after, .ok diagnostic))
    (hold : ∀ k c, m.constraints[k]? = some c → P k c) (hkept : ∀ k c, P k c → Q k c)
    (hnew : Q m.constraints.length ⟨r, p⟩) : ∀ k c, after.constraints[k]? = some c → Q k c := by
  obtain ⟨compiled, hcompiled, rfl⟩ := exists_compiled h
  intro k c hc
  rw [recordConstraint, hcompiled.constraints] at hc
  rcases lt_trichotomy k m.constraints.length with hlt | rfl | hgt
  · rw [List.getElem?_append_left hlt] at hc
    exact hkept k c (hold k c hc)
  · rw [List.getElem?_concat_length] at hc
    exact Option.some_inj.mp hc ▸ hnew
  · rw [List.getElem?_eq_none (by simpa using hgt)] at hc
    cases hc

/-- A silent constraint stays silent when another one is added. -/
theorem isSilent_addConstraint (h : m.addConstraint r p options = (after, .ok diagnostic))
    (hk : m.isSilent k) : after.isSilent k := by
  obtain ⟨compiled, hcompiled, rfl⟩ := exists_compiled h
  exact isSilent_recordConstraint hcompiled.constraints hcompiled.diagnostics hk

/-- A silent constraint stays silent when parameters get values. -/
theorem isSilent_substitute (values : Table String Coefficient) (hk : m.isSilent k) :
    (m.substitute values).isSilent k := by
  obtain ⟨⟨c, hc, hrelation⟩, hreport⟩ := isSilent_iff.mp hk
  exact isSilent_iff.mpr ⟨⟨_, (List.getElem?_map ..).trans (congrArg _ hc), hrelation⟩, hreport⟩

/-! ## The variables of a model -/

/-- Every variable of a constraint is numbered by the objective, unless the constraint is silent. -/
def IsCovered (m : Model d) : Prop :=
  ∀ k c, m.constraints[k]? = some c → m.isSilent k ∨ ∀ v ∈ c.polynomial.vars, v ∈ m.objective.index.labels

/-- Adding a constraint keeps the variables covered: it brings its own into the objective or is silent. -/
theorem IsCovered.addConstraint (hm : m.IsCovered) (hp : p.Regular Coefficient.Any)
    (h : m.addConstraint r p options = (after, .ok diagnostic)) : after.IsCovered := by
  obtain ⟨compiled, hcompiled, hafter⟩ := exists_compiled h
  have hlabels : m.objective.index.labels ⊆ after.objective.index.labels := by
    rw [hafter]
    exact hcompiled.labels_subset
  refine forall_constraints_addConstraint h hm (fun k c hkc => ?_) ?_
  · exact hkc.imp (isSilent_addConstraint h) fun hvars v hv => hlabels (hvars v hv)
  · exact (silent_or_penalty_of_addConstraint h).imp (·.1)
      fun hpenalty v hv => hpenalty.labels_subset (hp.mem_labels hv)

/-- In a model that was built up from regular parts, every variable is covered. -/
theorem Built.isCovered (h : Built f demands m)
    (hdemands : ∀ demand ∈ demands, demand.polynomial.Regular Coefficient.Any) : m.IsCovered := by
  induction h with
  | base => exact fun k c hc => by simp [ofObjective] at hc
  | add _ hadd ih =>
    obtain ⟨hold, hnew⟩ := List.forall_mem_append.mp hdemands
    exact (ih hold).addConstraint (hnew _ (List.mem_singleton.mpr rfl)) hadd

/-- The objective of a model built up from regular parts is regular. -/
theorem Built.regular (h : Built f demands m) (hf : f.Regular Coefficient.Any)
    (hdemands : ∀ demand ∈ demands, demand.polynomial.Regular Coefficient.Any) :
    m.objective.Regular Coefficient.Any := by
  induction h with
  | base => exact hf
  | @add demands m after demand diagnostic _ hadd ih =>
    obtain ⟨hold, hnew⟩ := List.forall_mem_append.mp hdemands
    have hafter : (m.addConstraint demand.relation demand.polynomial demand.options).1.objective.Regular
        Coefficient.Any :=
      regular_addConstraint (ih hold) (hnew demand (List.mem_singleton.mpr rfl)) trivial demand.relation
    rwa [hadd] at hafter

/-- Values for parameters can only take variables out of the terms of a constraint. -/
theorem IsCovered.substitute (hm : m.IsCovered) (values : Table String Coefficient) :
    (m.substitute values).IsCovered := by
  intro k c hc
  obtain ⟨before, hbefore, rfl⟩ := Option.map_eq_some_iff.mp ((List.getElem?_map ..).symm.trans hc)
  exact (hm k before hbefore).imp (isSilent_substitute values) fun h v hv =>
    (labels_prefix_mapCoefficients _ _).subset (h v (mem_vars_of_mem_mapCoefficients hv))

/-- The variables of silent inequalities that the objective has not numbered. -/
def silentVariables (m : Model d) : List Label :=
  (sortedSet ((m.constraints.zipIdx.filter fun c => m.isSilent c.2).flatMap
    fun c => c.1.polynomial.vars)).filter fun v => !m.objective.index.labels.contains v

/-- The silent variables are those of silent constraints that the objective does not have. -/
theorem mem_silentVariables : v ∈ m.silentVariables ↔
    v ∉ m.objective.index.labels ∧
      ∃ k c, m.constraints[k]? = some c ∧ m.isSilent k ∧ v ∈ c.polynomial.vars := by
  rw [silentVariables, List.mem_filter, Table.mem_sortedSet, List.mem_flatMap, and_comm]
  refine and_congr (by simp) ?_
  constructor
  · rintro ⟨⟨c, k⟩, hc, hv⟩
    obtain ⟨hmem, hsilent⟩ := List.mem_filter.mp hc
    exact ⟨k, c, List.mk_mem_zipIdx_iff_getElem?.mp hmem, hsilent, hv⟩
  · rintro ⟨k, c, hc, hsilent, hv⟩
    exact ⟨(c, k), List.mem_filter.mpr ⟨List.mk_mem_zipIdx_iff_getElem?.mpr hc, hsilent⟩, hv⟩

theorem nodup_silentVariables (m : Model d) : m.silentVariables.Nodup :=
  ((Table.increasing_sortedSet _).nodup).filter _

/-- A search goes through the variables of the objective and those of silent inequalities. -/
theorem enumeratedVariables_perm (hm : m.IsCovered) (hnodup : m.objective.index.labels.Nodup) :
    m.enumeratedVariables.Perm (m.objective.index.labels ++ m.silentVariables) := by
  have hdisjoint : (m.objective.index.labels ++ m.silentVariables).Nodup :=
    hnodup.append (nodup_silentVariables m) fun v hv hsilent => (mem_silentVariables.mp hsilent).1 hv
  rw [List.perm_ext_iff_of_nodup (nodup_enumeratedVariables hnodup) hdisjoint]
  intro v
  rw [enumeratedVariables_eq, mem_insertAll_iff, List.mem_append]
  refine or_congr_right' fun hv => ?_
  rw [mem_silentVariables, and_iff_right hv, List.mem_flatMap]
  constructor
  · rintro ⟨c, hc, hvars⟩
    obtain ⟨k, hk⟩ := List.mem_iff_getElem?.mp hc
    exact ⟨k, c, hk, (hm k c hk).resolve_right fun h => hv (h v hvars), hvars⟩
  · rintro ⟨k, c, hk, -, hvars⟩
    exact ⟨c, List.mem_of_getElem? hk, hvars⟩

end PseudoBoolean.Model
