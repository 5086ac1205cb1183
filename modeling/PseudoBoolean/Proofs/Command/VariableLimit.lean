import PseudoBoolean.Proofs.Command.Search
import PseudoBoolean.Proofs.Document.SlackLabels
import PseudoBoolean.Proofs.Model.Silent

/-!
# The limit of the search

Before `solve` searches it compares the number of variables with the limit of the settings. What it counts
are the variables that the objective has numbered. The search goes through those and through the variables
that only constraints have, and these are the variables of silent inequalities
(`Built.isCovered`). So the search keeps within the limit exactly if there is room for the silent variables
as well (`Searches.within_limit_iff`); a document can have more of them (`overLimit`).
-/

namespace PseudoBoolean

open PseudoBoolean.Polynomial Model

variable {document : ModelDocument}

/-- The constraints of a document have regular polynomials. -/
theorem ConstraintDocument.regular_of_isDemand {d : Domain} {defaults : ConstraintOptions}
    {constraints : List ConstraintDocument} {demands : List (Demand d)}
    (h : List.Forall₂ (ConstraintDocument.IsDemand defaults) constraints demands) :
    ∀ demand ∈ demands, demand.polynomial.Regular Coefficient.Any := by
  intro demand hmem
  obtain ⟨c, -, hdemand⟩ := (exists_mem_of_forall₂ h).2 demand hmem
  exact (WrittenTerm.polynomial_spec hdemand.polynomial).1

/-- In the model of a document all variables are numbered, apart from those of silent inequalities. -/
theorem ModelDocument.isCovered {defaults : ConstraintOptions} {bare : Model document.domain}
    (h : document.toModel defaults = .ok bare) :
    bare.IsCovered ∧ bare.objective.Regular Coefficient.Any := by
  obtain ⟨f, demands, hf, hdemands, hbuilt⟩ := exists_built h
  have hregular := ConstraintDocument.regular_of_isDemand hdemands
  exact ⟨hbuilt.isCovered hregular, hbuilt.regular (WrittenTerm.polynomial_spec hf).1 hregular⟩

namespace Model

variable {d : Domain} {m : Model d}

/-- Giving values to the parameters keeps the variables covered. -/
theorem IsCovered.withValues (hm : m.IsCovered) (values : List (String × Float)) :
    (m.withValues values).IsCovered :=
  of_withValues hm hm.substitute values

/-- Giving values to the parameters keeps the objective regular. -/
theorem regular_withValues (hm : m.objective.Regular Coefficient.Any)
    (values : List (String × Float)) : (m.withValues values).objective.Regular Coefficient.Any :=
  of_withValues (P := fun m => m.objective.Regular Coefficient.Any) hm
    (fun _ => hm.mapCoefficients fun _ _ => trivial) values

/-- A search goes through as many variables as are numbered and silent. -/
theorem length_enumeratedVariables (hm : m.IsCovered) (hnodup : m.objective.index.labels.Nodup) :
    m.enumeratedVariables.length = m.objective.index.size + m.silentVariables.length := by
  rw [(enumeratedVariables_perm hm hnodup).length_eq, List.length_append, VariableIndex.size]

end Model

namespace Command

variable {dir : Directory} {configPath : Option String} {source : ModelSource}
  {model : Model document.domain}

/-- A search goes through the variables of the objective, which are within the limit, and through the
variables of silent inequalities. It keeps within the limit exactly if there is room for these, and so it
does whenever the objective has numbered them. -/
theorem Searches.within_limit_iff (h : Searches dir configPath source document model) :
    model.enumeratedVariables.Perm (model.objective.index.labels ++ model.silentVariables) ∧
      model.objective.index.size ≤ (dir.settings configPath).variableLimit ∧
      (model.enumeratedVariables.length ≤ (dir.settings configPath).variableLimit ↔
        model.silentVariables.length ≤
          (dir.settings configPath).variableLimit - model.objective.index.size) ∧
      ((∀ k c, model.constraints[k]? = some c → model.isSilent k →
          ∀ v ∈ c.polynomial.vars, v ∈ model.objective.index.labels) →
        model.enumeratedVariables.length ≤ (dir.settings configPath).variableLimit) := by
  obtain ⟨bare, hbare, rfl⟩ := h.built
  obtain ⟨hbareCovered, hbareRegular⟩ := document.isCovered hbare
  have hcovered := hbareCovered.withValues source.values
  have hdistinct := (regular_withValues hbareRegular source.values).distinct
  have hlength := length_enumeratedVariables hcovered hdistinct
  have hlimited := h.limited
  refine ⟨enumeratedVariables_perm hcovered hdistinct, hlimited, by omega, fun hnumbered => ?_⟩
  have hnone : (bare.withValues source.values).silentVariables = [] := by
    refine List.eq_nil_iff_forall_not_mem.mpr fun v hv => ?_
    obtain ⟨hnew, k, c, hk, hsilent, hvars⟩ := mem_silentVariables.mp hv
    exact hnew (hnumbered k c hk hsilent v hvars)
  rw [hlength, hnone]
  exact hlimited

/-- One inequality with a slack bit, and one that always holds. -/
def withinLimit : Directory :=
  .project "max_bruteforce_variables = 4\n" <|
    "\x7b\"domain\":\"binary\",\"objective\":[[[\"x\"],-1]],\"constraints\":[" ++
    "\x7b\"relation\":\"le\",\"polynomial\":[[[\"x\"],1],[[\"y\"],1],[[],-1]]\x7d," ++
    "\x7b\"relation\":\"le\",\"polynomial\":[[[\"z\"],1],[[],-1]]\x7d]\x7d"

theorem variableLimit_withinLimit : (withinLimit.settings none).variableLimit = 4 :=
  Directory.variableLimit_project (by decide +kernel)

/-- There is room for the one silent variable. -/
theorem Searches.within_limit_iff_slack :
    ∃ (document : ModelDocument) (model : Model document.domain),
      Searches withinLimit none ⟨"model.json", []⟩ document model ∧
      model.silentVariables = [.name "z"] ∧
      model.enumeratedVariables.length ≤ (withinLimit.settings none).variableLimit := by
  have hload : (loaded withinLimit none ⟨"model.json", []⟩).map (fun result =>
      (decide (result.model.objective.index.size ≤ 4),
        result.model.objective.index.size, result.model.silentVariables)) =
      .ok (true, 3, [.name "z"]) := by
    rw [withinLimit, loaded_project]
    decide +kernel
  obtain ⟨document, model, hsearches, hfacts⟩ :=
    exists_searches_of_map variableLimit_withinLimit hload
  obtain ⟨hsize, hsilent⟩ := Prod.mk.inj hfacts
  refine ⟨document, model, hsearches, hsilent, hsearches.within_limit_iff.2.2.1.mpr ?_⟩
  rw [variableLimit_withinLimit, hsize, hsilent]
  decide

/-- One variable in the objective, and another in an inequality that always holds. -/
def overLimit : Directory :=
  .project "max_bruteforce_variables = 1\n" <|
    "\x7b\"domain\":\"binary\",\"objective\":[[[\"x\"],1]],\"constraints\":[" ++
    "\x7b\"relation\":\"le\",\"polynomial\":[[[\"y\"],1],[[],-1]]\x7d]\x7d"

theorem variableLimit_overLimit : (overLimit.settings none).variableLimit = 1 :=
  Directory.variableLimit_project (by decide +kernel)

/-- The search goes through two variables where the limit is one. -/
theorem Searches.beyond_limit :
    ∃ (document : ModelDocument) (model : Model document.domain),
      Searches overLimit none ⟨"model.json", []⟩ document model ∧
      model.enumeratedVariables = [.name "x", .name "y"] ∧
      (overLimit.settings none).variableLimit = 1 := by
  have hload : (loaded overLimit none ⟨"model.json", []⟩).map (fun result =>
      (decide (result.model.objective.index.size ≤ 1), result.model.enumeratedVariables)) =
      .ok (true, [.name "x", .name "y"]) := by
    rw [overLimit, loaded_project]
    decide +kernel
  obtain ⟨document, model, hsearches, hvars⟩ :=
    exists_searches_of_map variableLimit_overLimit hload
  exact ⟨document, model, hsearches, hvars, variableLimit_overLimit⟩

end Command

end PseudoBoolean
