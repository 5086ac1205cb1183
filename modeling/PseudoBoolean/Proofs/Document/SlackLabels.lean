import PseudoBoolean.Document.Compile
import PseudoBoolean.Proofs.Model.PenaltyMethod
import PseudoBoolean.Proofs.Model.Run

/-!
# Slack bits and the labels of a document

A document may name a variable by a text that is read as an ancilla. The slack bits of a constraint get
numbers above the ancillas of the objective and of all constraints up to this one, so they are none of the
variables that the document has named by then (`Built.isNewSlack`). What comes after the constraint is not
looked at. A later constraint can name a slack bit, and then it is about this bit and not about a variable
of its own (`LoadedModel.slack_named_after`).

Only labels that are numbered can be avoided. Those are the ones that a term still has in normal form, if
its coefficient is not zero (`WrittenTerm.mentioned`).
-/

namespace PseudoBoolean

open PseudoBoolean.Polynomial

/-! ## Labels that a document mentions -/

namespace WrittenTerm

/-- The labels that a term leaves in a polynomial. -/
def mentioned (d : Domain) (t : WrittenTerm) : List Label :=
  match t.labels with
  | .ok key => if t.coefficient.toCoefficient.isZero then [] else Term.normalize d key
  | .error _ => []

/-- The labels that a list of terms leaves in a polynomial. -/
def mentionedIn (d : Domain) (terms : List WrittenTerm) : List Label :=
  terms.flatMap (mentioned d)

variable {d : Domain} {terms : List WrittenTerm} {p : Polynomial d Label} {v : Label}

/-- The labels and the coefficient of a term as an entry of a polynomial. -/
def IsEntry (t : WrittenTerm) (e : List Label × Coefficient) : Prop :=
  t.labels = .ok e.1 ∧ t.coefficient.toCoefficient = e.2

/-- A label is mentioned by an entry that is not zero and has it in its normal form. -/
theorem mem_mentionedIn_iff {entries : List (List Label × Coefficient)}
    (h : List.Forall₂ IsEntry terms entries) :
    v ∈ mentionedIn d terms ↔ ∃ e ∈ entries, e.2.isZero = false ∧ v ∈ Term.normalize d e.1 := by
  rw [mentionedIn, List.mem_flatMap]
  induction h with
  | nil => simp
  | @cons t e terms entries hte _ ih =>
    rw [List.exists_mem_cons_iff, List.exists_mem_cons_iff, ih, mentioned, hte.1, hte.2]
    refine or_congr_left ?_
    cases e.2.isZero <;> simp

/-- The polynomial of a list of terms records nothing and numbers what the terms mention. -/
theorem polynomial_spec (h : polynomial d terms = .ok p) :
    p.Regular Coefficient.Any ∧ p.ancillas = [] ∧
      ∀ v, v ∈ p.index.labels ↔ v ∈ mentionedIn d terms := by
  obtain ⟨entries, hentries, hp⟩ := exists_of_bind_eq_ok h
  obtain rfl := Except.ok.inj hp
  have hread : List.Forall₂ IsEntry terms entries := by
    refine (forall₂_of_mapM hentries).imp fun t e hte => ?_
    obtain ⟨key, hkey, he⟩ := exists_of_bind_eq_ok hte
    obtain rfl := Except.ok.inj he
    exact ⟨hkey, rfl⟩
  refine ⟨.ofTerms fun _ _ => trivial, ?_, fun v => ?_⟩
  · rw [ofTerms_eq, ancillas_accumulateList]
    rfl
  · rw [mem_labels_ofTerms, mem_mentionedIn_iff hread]

end WrittenTerm

/-! ## Slack of models that are built -/

namespace Model

variable {d : Domain} {m compiled : Model d} {f : Polynomial d Label} {demands : List (Demand d)}
  {demand : Demand d} {v : Label} {origin : Origin Label}

/-- A built model has the labels of the objective it started with. -/
theorem Built.labels_subset (h : Built f demands m) :
    f.index.labels ⊆ m.objective.index.labels := by
  induction h with
  | base => exact List.Subset.refl _
  | add _ hadd ih =>
    obtain ⟨compiled, hcompiled, rfl⟩ := exists_compiled hadd
    exact fun v hv => hcompiled.labels_subset (ih hv)

/-- A demand as documents make them: without records of its own, and with room for further ancillas. -/
structure Demand.IsPlain (demand : Demand d) : Prop where
  regular : demand.polynomial.Regular Coefficient.Any
  ancillas : demand.polynomial.ancillas = []
  hasRoom : HasRoom demand.polynomial.index.labels

/-- Building a model from plain demands is a run. -/
theorem Built.run (h : Built f demands m) (hf : f.Regular Coefficient.Any)
    (hdemands : ∀ demand ∈ demands, demand.IsPlain) : Run m := by
  induction h with
  | base => exact .start hf
  | @add demands m after demand diagnostic _ hadd ih =>
    obtain ⟨hold, hnew⟩ := List.forall_mem_append.mp hdemands
    have hplain := List.forall_mem_singleton.mp hnew
    have hrun := (ih hold).addConstraint demand.relation demand.options hplain.regular hplain.hasRoom
    rwa [hadd] at hrun

/-- The record of a slack bit that is new to the base objective and to the constraints, up to the one for
which it is introduced. -/
def IsNewSlack (f : Polynomial d Label) (demands : List (Demand d)) (v : Label)
    (origin : Origin Label) : Prop :=
  ∃ k w, origin = .slack k w ∧ k < demands.length ∧ v ∉ f.index.labels ∧
    ∀ j demand, demands[j]? = some demand → v ∈ demand.polynomial.index.labels → k < j

/-- A further constraint comes after the one for which the slack bit was introduced. -/
theorem IsNewSlack.append (h : IsNewSlack f demands v origin) (demand : Demand d) :
    IsNewSlack f (demands ++ [demand]) v origin := by
  obtain ⟨k, w, horigin, hk, hf, hlater⟩ := h
  refine ⟨k, w, horigin, ?_, hf, fun j demand' hj hv => ?_⟩
  · rw [List.length_append]
    exact hk.trans_le (Nat.le_add_right _ _)
  · rcases lt_or_ge j demands.length with hlt | hge
    · rw [List.getElem?_append_left hlt] at hj
      exact hlater j demand' hj hv
    · exact hk.trans_le hge

/-- The slack bits of a further constraint are none of the variables before. -/
theorem Built.isNewSlack_of_mem_slackLabels (h : Built f demands m) (hm : m.IsTracked)
    (hcompiled : Compiled m demand.relation demand.polynomial demand.options compiled)
    (hroom : HasRoom compiled.objective.index.labels)
    (hv : v ∈ m.slackLabels demand.polynomial compiled) (w : Number) :
    IsNewSlack f (demands ++ [demand]) v (.slack demands.length w) := by
  obtain ⟨hobjective, hconstraint⟩ := hcompiled.notMem_labels hroom hv
  refine ⟨_, w, rfl, by simp, fun hlabel => hobjective (h.labels_subset hlabel),
    fun j demand' hj hlabel => ?_⟩
  rcases lt_trichotomy j demands.length with hlt | rfl | hgt
  · -- the ancillas of the constraints before are taken
    rw [List.getElem?_append_left hlt] at hj
    have hmem : demand'.toConstraint ∈ m.constraints := by
      rw [h.constraints]
      exact List.mem_map_of_mem (List.mem_of_getElem? hj)
    obtain ⟨n, rfl, -⟩ := Slack.isAncilla_of_mem_labels hv
    exact absurd (hm.taken _ hmem n hlabel) (hcompiled.not_isTaken hroom hv)
  · rw [List.getElem?_concat_length] at hj
    obtain rfl := Option.some_inj.mp hj
    exact absurd hlabel hconstraint
  · exact hgt

/-- All that is recorded are new slack bits. -/
theorem Built.isNewSlack (h : Built f demands m) (hf : f.Regular Coefficient.Any)
    (hancillas : f.ancillas = []) (hdemands : ∀ demand ∈ demands, demand.IsPlain)
    (hroom : HasRoom m.objective.index.labels)
    (hget : m.objective.ancillas.get? v = some origin) : IsNewSlack f demands v origin := by
  induction h with
  | base =>
    rw [ofObjective, hancillas] at hget
    cases hget
  | @add demands m after demand diagnostic hbuilt hadd ih =>
    obtain ⟨hold, hnew⟩ := List.forall_mem_append.mp hdemands
    have hplain := List.forall_mem_singleton.mp hnew
    obtain ⟨compiled, hcompiled, rfl⟩ := exists_compiled hadd
    have hroom' : HasRoom m.objective.index.labels := fun n hn =>
      hroom n (hcompiled.labels_subset hn)
    have hget' : compiled.objective.ancillas.get? v = some origin := hget
    obtain ⟨⟨bits, hbits, -, hrecorded⟩, hothers⟩ :=
      hcompiled.records (hplain.ancillas ▸ List.Pairwise.nil) hroom
    by_cases hv : v ∈ m.slackLabels demand.polynomial compiled
    · obtain ⟨e, he, rfl⟩ := List.mem_map.mp (hbits ▸ hv)
      rw [hrecorded e he, hbuilt.constraints, List.length_map] at hget'
      obtain rfl := Option.some_inj.mp hget'
      exact hbuilt.isNewSlack_of_mem_slackLabels ((hbuilt.run hf hold).isTracked hroom') hcompiled
        hroom hv _
    · -- a record of before, since the new constraint brings none
      refine (ih hold hroom' ?_).append demand
      rcases hothers v hv with hsame | ⟨-, hbrought⟩
      · exact hsame ▸ hget'
      · rw [hbrought, hplain.ancillas] at hget'
        cases hget'

/-- All labels of ancillas that a model knows of are small enough for further ones to be counted. -/
def LeavesRoom (m : Model d) : Prop :=
  HasRoom m.objective.index.labels ∧ ∀ c ∈ m.constraints, HasRoom c.polynomial.index.labels

instance (m : Model d) : Decidable m.LeavesRoom :=
  inferInstanceAs (Decidable (_ ∧ _))

end Model

/-! ## Documents -/

section Documents

open Model

variable {defaults : ConstraintOptions}

/-- What a constraint of a document demands. -/
structure ConstraintDocument.IsDemand {d : Domain} (defaults : ConstraintOptions)
    (c : ConstraintDocument) (demand : Demand d) : Prop where
  relation : demand.relation = c.relation
  polynomial : WrittenTerm.polynomial d c.polynomial = .ok demand.polynomial
  options : demand.options = c.options defaults

/-- A constraint that was added was a demand that the model accepted. -/
theorem ConstraintDocument.exists_demand {d : Domain} {c : ConstraintDocument} {m after : Model d}
    (h : c.addTo defaults m = .ok after) :
    ∃ (demand : Demand d) (diagnostic : Option Diagnostic), c.IsDemand defaults demand ∧
      m.addConstraint demand.relation demand.polynomial demand.options = (after, .ok diagnostic) := by
  obtain ⟨p, hp, h⟩ := exists_of_bind_eq_ok h
  obtain ⟨diagnostic, hok, hafter⟩ := exists_of_map_eq_ok h
  exact ⟨⟨⟨c.relation, p⟩, c.options defaults⟩, diagnostic, ⟨rfl, hp, rfl⟩, Prod.ext hafter hok⟩

/-- The constraints of a document are added one after the other, each with success. -/
theorem exists_built_of_foldlM {d : Domain} {f : Polynomial d Label} {demands : List (Demand d)}
    {m after : Model d} {constraints : List ConstraintDocument} (hbuilt : Built f demands m)
    (h : constraints.foldlM (fun m c => c.addTo defaults m) m = .ok after) :
    ∃ added, List.Forall₂ (ConstraintDocument.IsDemand defaults) constraints added ∧
      Built f (demands ++ added) after := by
  induction constraints generalizing demands m with
  | nil =>
    obtain rfl := Except.ok.inj h
    exact ⟨[], .nil, (List.append_nil demands).symm ▸ hbuilt⟩
  | cons c constraints ih =>
    rw [List.foldlM_cons] at h
    obtain ⟨next, hnext, h⟩ := exists_of_bind_eq_ok h
    obtain ⟨demand, diagnostic, hdemand, hadd⟩ := ConstraintDocument.exists_demand hnext
    obtain ⟨added, hadded, hlast⟩ := ih (hbuilt.add hadd) h
    exact ⟨demand :: added, .cons hdemand hadded, List.append_cons demands demand added ▸ hlast⟩

/-- A document that was compiled was built from its objective and the demands of its constraints. -/
theorem ModelDocument.exists_built {document : ModelDocument} {m : Model document.domain}
    (h : document.toModel defaults = .ok m) :
    ∃ f demands, WrittenTerm.polynomial document.domain document.objective = .ok f ∧
      List.Forall₂ (ConstraintDocument.IsDemand defaults) document.constraints demands ∧
      Built f demands m := by
  obtain ⟨f, hf, h⟩ := exists_of_bind_eq_ok h
  obtain ⟨demands, hdemands, hbuilt⟩ := exists_built_of_foldlM .base h
  exact ⟨f, demands, hf, hdemands, hbuilt⟩

/-- What is recorded in the model of a document are slack bits of its constraints. The label of a bit is
mentioned neither in the objective nor in a constraint, unless that comes after the one of the bit. -/
theorem ModelDocument.slack_spec {document : ModelDocument} {m : Model document.domain}
    (h : document.toModel defaults = .ok m) (hroom : m.LeavesRoom) {v : Label}
    {origin : Origin Label} (hget : m.objective.ancillas.get? v = some origin) :
    ∃ k w, origin = .slack k w ∧ k < document.constraints.length ∧
      v ∉ WrittenTerm.mentionedIn document.domain document.objective ∧
      ∀ j c, document.constraints[j]? = some c →
        v ∈ WrittenTerm.mentionedIn document.domain c.polynomial → k < j := by
  obtain ⟨f, demands, hf, hdemands, hbuilt⟩ := exists_built h
  obtain ⟨hregular, hancillas, hlabels⟩ := WrittenTerm.polynomial_spec hf
  obtain ⟨hlength, hread⟩ := List.forall₂_iff_get.mp hdemands
  have hplain : ∀ demand ∈ demands, demand.IsPlain := by
    intro demand hmem
    obtain ⟨j, hj, rfl⟩ := List.mem_iff_getElem.mp hmem
    obtain ⟨hp, hnone, -⟩ := WrittenTerm.polynomial_spec (hread j (hlength ▸ hj) hj).polynomial
    refine ⟨hp, hnone, hroom.2 demands[j].toConstraint ?_⟩
    rw [hbuilt.constraints]
    exact List.mem_map_of_mem hmem
  obtain ⟨k, w, horigin, hk, hobjective, hlater⟩ :=
    hbuilt.isNewSlack hregular hancillas hplain hroom.1 hget
  refine ⟨k, w, horigin, hlength ▸ hk, fun hv => hobjective ((hlabels v).mpr hv), fun j c hj hv => ?_⟩
  obtain ⟨hlt, rfl⟩ := List.getElem?_eq_some_iff.mp hj
  have hdemand := hread j hlt (hlength ▸ hlt)
  refine hlater j _ (List.getElem?_eq_getElem (hlength ▸ hlt)) ?_
  exact ((WrittenTerm.polynomial_spec hdemand.polynomial).2.2 v).mpr hv

/-- For every document that is loaded, all that is recorded are slack bits of its constraints. The label of
such a bit is mentioned neither in the objective nor in a constraint, unless that comes after the one of
the bit. -/
theorem LoadedModel.slack_mentioned_later {text : String} {loaded : LoadedModel}
    (h : LoadedModel.ofText text defaults = .ok loaded) (hroom : loaded.model.LeavesRoom) :
    ∃ document, ModelDocument.ofText text = .ok document ∧ document.domain = loaded.domain ∧
      ∀ v origin, loaded.model.objective.ancillas.get? v = some origin →
        ∃ k w, origin = .slack k w ∧ k < document.constraints.length ∧
          v ∉ WrittenTerm.mentionedIn document.domain document.objective ∧
          ∀ j c, document.constraints[j]? = some c →
            v ∈ WrittenTerm.mentionedIn document.domain c.polynomial → k < j := by
  obtain ⟨document, hdocument, h⟩ := exists_of_bind_eq_ok h
  obtain ⟨m, hm, h⟩ := exists_of_bind_eq_ok h
  obtain rfl := Except.ok.inj h
  exact ⟨document, hdocument, rfl, fun v origin => document.slack_spec hm hroom⟩

/-- At most one of two variables is one, of which the second is named like an ancilla. -/
def namedBefore : String :=
  "\x7b\"domain\":\"binary\",\"objective\":[[[\"x\"],-1]],\"constraints\":[" ++
  "\x7b\"relation\":\"le\",\"polynomial\":[[[\"x\"],1],[[\"__a4\"],1],[[],-1]]\x7d]\x7d"

/-- The slack bit gets the next number. -/
theorem LoadedModel.slack_mentioned_later_namedBefore :
    ∃ document loaded, ModelDocument.ofText namedBefore = .ok document ∧
      LoadedModel.ofText namedBefore {} = .ok loaded ∧
      loaded.model.objective.ancillas.get? (.ancilla 5) = some (.slack 0 1) ∧
      .ancilla 5 ∉ WrittenTerm.mentionedIn document.domain document.objective ∧
      ∀ c ∈ document.constraints,
        .ancilla 5 ∉ WrittenTerm.mentionedIn document.domain c.polynomial := by
  have hload : (LoadedModel.ofText namedBefore {}).map (fun loaded =>
      (decide loaded.model.LeavesRoom, loaded.model.objective.ancillas.get? (.ancilla 5))) =
      .ok (true, some (.slack 0 1)) := by decide +kernel
  obtain ⟨loaded, hloaded, hresult⟩ := exists_of_map_eq_ok hload
  obtain ⟨hroom, hget⟩ := Prod.mk.inj hresult
  obtain ⟨document, hdocument, -, hall⟩ := slack_mentioned_later hloaded (of_decide_eq_true hroom)
  have hone : (ModelDocument.ofText namedBefore).map (·.constraints.length) = .ok 1 := by
    decide +kernel
  rw [hdocument] at hone
  have hlength : document.constraints.length = 1 := Except.ok.inj hone
  obtain ⟨k, w, -, hk, hobjective, hlater⟩ := hall _ _ hget
  refine ⟨document, loaded, hdocument, hloaded, hget, hobjective, fun c hc hv => ?_⟩
  obtain ⟨j, hj, rfl⟩ := List.mem_iff_getElem.mp hc
  have := hlater j _ (List.getElem?_eq_getElem hj) hv
  omega

/-- One constraint has a slack bit, and the next one is about a variable of the same name. -/
def namedAfter : String :=
  "\x7b\"domain\":\"binary\",\"objective\":[[[\"x\"],-1]],\"constraints\":[" ++
  "\x7b\"relation\":\"le\",\"polynomial\":[[[\"x\"],1],[[\"y\"],1],[[],-1]]\x7d," ++
  "\x7b\"relation\":\"eq\",\"polynomial\":[[[\"__a0\"],1],[[],-1]]\x7d]\x7d"

/-- The document is loaded, and the slack bit has the label that its second constraint mentions. -/
theorem LoadedModel.slack_named_after :
    ∃ document loaded, ModelDocument.ofText namedAfter = .ok document ∧
      LoadedModel.ofText namedAfter {} = .ok loaded ∧
      loaded.model.objective.ancillas.get? (.ancilla 0) = some (.slack 0 1) ∧
      ∃ c ∈ document.constraints,
        .ancilla 0 ∈ WrittenTerm.mentionedIn document.domain c.polynomial := by
  have hload : (LoadedModel.ofText namedAfter {}).map
      (·.model.objective.ancillas.get? (.ancilla 0)) = .ok (some (.slack 0 1)) := by decide +kernel
  have hmentions : (ModelDocument.ofText namedAfter).map (fun document =>
      decide (∃ c ∈ document.constraints,
        Label.ancilla 0 ∈ WrittenTerm.mentionedIn document.domain c.polynomial)) = .ok true := by
    decide +kernel
  obtain ⟨loaded, hloaded, hget⟩ := exists_of_map_eq_ok hload
  obtain ⟨document, hdocument, hmentioned⟩ := exists_of_map_eq_ok hmentions
  exact ⟨document, loaded, hdocument, hloaded, hget, of_decide_eq_true hmentioned⟩

end Documents

end PseudoBoolean
