import PseudoBoolean.Proofs.Command.Search
import PseudoBoolean.Proofs.Document.SlackLabels
import PseudoBoolean.Proofs.Model.UnresolvedParameters

/-!
# Parameters in a search

Before `solve` searches it refuses an objective with parameters. That covers the constraints as far as they
have left a penalty there, for with a positive weight no parameter of theirs can vanish from the objective.
So the only constraints with a parameter that a search can meet are silent inequalities whose range the
document gives (`Searches.resolved_or_silent`). Such a constraint counts as violated by every solution
(`Searches.unresolved_silent`).
-/

namespace PseudoBoolean

open PseudoBoolean.Polynomial Model Monomial

variable {document : ModelDocument}

/-! ## Weights -/

/-- A positive number, or the name of one under the values of the parameters. -/
def Coefficient.IsPositiveUnder (values : Table String Coefficient) (c : Coefficient) : Prop :=
  ∃ x, Number.lt 0 x ∧ (c = .num x ∨ ∃ name, c = .param name ∧ values.get? name = some (.num x))

/-- If it is an exact number, it is whole. -/
def Coefficient.IsWhole (c : Coefficient) : Prop :=
  ∀ q, c = .num (.exact q) → q.den = 1

/-- A floating-point value becomes a number, and a whole one where it is exact. -/
theorem Coefficient.ofFloat_spec (x : Float) :
    (∃ a, ofFloat x = .num a) ∧ (ofFloat x).IsWhole := by
  rw [ofFloat]
  cases Binary64.toRat? x with
  | none => exact ⟨⟨_, rfl⟩, fun q h => by cases h⟩
  | some q =>
    dsimp only
    split
    · rename_i hwhole
      refine ⟨⟨_, rfl⟩, fun q' h => ?_⟩
      obtain rfl := Number.exact.inj (Coefficient.num.inj h)
      exact hwhole.1
    · exact ⟨⟨_, rfl⟩, fun q h => by cases h⟩

/-- An exact number that is written in a document is whole. -/
theorem WrittenCoefficient.isWhole (c : WrittenCoefficient) : c.toCoefficient.IsWhole := by
  intro q h
  cases c with
  | int n =>
    obtain rfl := Number.exact.inj (Coefficient.num.inj h)
    rfl
  | float x => cases h
  | param name => cases h

/-- A written coefficient is a number or a single parameter. -/
theorem WrittenCoefficient.isSingle (c : WrittenCoefficient) : c.toCoefficient.IsSingle := by
  cases c with
  | int n => exact .inl ⟨_, rfl⟩
  | float x => exact .inl ⟨_, rfl⟩
  | param name => exact .inr ⟨name, rfl⟩

/-- The weight of a constraint is its own or that of the settings. -/
theorem ConstraintDocument.isWhole_weight (c : ConstraintDocument) (config : Config) :
    (c.options config.constraintOptions).weight.IsWhole := by
  rw [options]
  cases c.weight with
  | none => exact (Coefficient.ofFloat_spec config.weight).2
  | some weight => exact weight.isWhole

theorem exists_of_mem_valueTable {values : List (String × Float)} {e : String × Coefficient}
    (h : e ∈ valueTable values) : ∃ x, e.2 = .ofFloat x := by
  obtain ⟨e', -, he⟩ := List.mem_map.mp (Table.mem_of_mem_ofList h)
  exact ⟨e'.2, (Prod.mk.inj he).2.symm⟩

/-- The values given on the command line are numbers. -/
theorem areNumbers_valueTable (values : List (String × Float)) :
    Coefficient.AreNumbers (valueTable values) := by
  intro e he
  obtain ⟨x, hx⟩ := exists_of_mem_valueTable he
  exact hx ▸ (Coefficient.ofFloat_spec x).1

/-- An exact number among the values given on the command line is whole. -/
theorem isWhole_of_get?_valueTable {values : List (String × Float)} {name : String} {v : Coefficient}
    (h : (valueTable values).get? name = some v) : v.IsWhole := by
  obtain ⟨x, rfl⟩ := exists_of_mem_valueTable (Table.mem_of_get?_eq_some h)
  exact (Coefficient.ofFloat_spec x).2

/-- A positive number that is a double or whole is fit to be a weight. -/
theorem Coefficient.IsPositiveUnder.isWeight {values : List (String × Float)} {c : Coefficient}
    (h : c.IsPositiveUnder (valueTable values)) (hwhole : c.IsWhole) :
    c.IsWeight (valueTable values) := by
  obtain ⟨x, hpositive, rfl | ⟨name, rfl, hvalue⟩⟩ := h
  · exact .inl ⟨x, rfl, Number.isPositive_of_lt hpositive fun q hq => hwhole q (congrArg _ hq)⟩
  · exact .inr ⟨name, rfl, x, hvalue, Number.isPositive_of_lt hpositive fun q hq =>
      isWhole_of_get?_valueTable hvalue q (congrArg _ hq)⟩

/-! ## Documents -/

/-- Terms that are read from a document give a polynomial linear in the parameters. -/
theorem WrittenTerm.linear_polynomial {d : Domain} {terms : List WrittenTerm} {p : Polynomial d Label}
    (h : WrittenTerm.polynomial d terms = .ok p) : p.Every (Linear 1) := by
  obtain ⟨entries, hentries, hp⟩ := exists_of_bind_eq_ok h
  obtain rfl := Except.ok.inj hp
  refine every_ofTerms fun e he => ?_
  obtain ⟨t, -, hte⟩ := (exists_mem_of_forall₂ (forall₂_of_mapM hentries)).2 e he
  obtain ⟨key, -, he⟩ := exists_of_bind_eq_ok hte
  obtain rfl := Except.ok.inj he
  exact t.coefficient.isSingle

/-- In the model of a document with positive weights, parameters without a value show in the objective or
belong to silent inequalities for which the document gives a range. -/
theorem ModelDocument.showsUnresolved {config : Config} {bare : Model document.domain}
    {values : List (String × Float)} (h : document.toModel config.constraintOptions = .ok bare)
    (hweights : ∀ c ∈ document.constraints,
      (c.options config.constraintOptions).weight.IsPositiveUnder (valueTable values)) :
    bare.ShowsUnresolved (valueTable values)
        (fun k => ∃ c, document.constraints[k]? = some c ∧ c.bounds ≠ none) ∧
      ∀ c ∈ bare.constraints, c.polynomial.Every (Linear 1) := by
  obtain ⟨f, demands, hf, hdemands, hbuilt⟩ := exists_built h
  have hparts : ∀ demand ∈ demands, demand.IsWeighted (valueTable values) := by
    intro demand hmem
    obtain ⟨c, hc, hdemand⟩ := (exists_mem_of_forall₂ hdemands).2 demand hmem
    refine ⟨WrittenTerm.linear_polynomial hdemand.polynomial, ?_⟩
    rw [hdemand.options]
    exact (hweights c hc).isWeight (c.isWhole_weight config)
  obtain ⟨hobjective, hconstraints⟩ :=
    hbuilt.showsUnresolved (WrittenTerm.linear_polynomial hf) hparts
  refine ⟨⟨hobjective, fun k c hc hoccurs => ?_⟩, fun c hc => ?_⟩
  · refine (hconstraints k c hc hoccurs).imp_left fun ⟨hsilent, demand, hk, hbounds⟩ => ⟨hsilent, ?_⟩
    obtain ⟨hlength, hget⟩ := List.getElem?_eq_some_iff.mp hk
    have hlength' : k < document.constraints.length := hdemands.length_eq ▸ hlength
    have hdemand := hdemands.get hlength' hlength
    refine ⟨document.constraints[k], List.getElem?_eq_getElem hlength', fun hnone => hbounds ?_⟩
    have hoptions : demand.options = document.constraints[k].options config.constraintOptions :=
      hget ▸ hdemand.options
    rw [hoptions, ConstraintDocument.options, hnone]
    rfl
  · rw [hbuilt.constraints] at hc
    obtain ⟨demand, hmem, rfl⟩ := List.mem_map.mp hc
    exact (hparts demand hmem).linear

/-- Once the objective has no parameters, only the silent inequalities can have some. -/
theorem Model.ShowsUnresolved.resolved {d : Domain} {bare : Model d} {values : List (String × Float)}
    {bounded : ℕ → Prop} (h : bare.ShowsUnresolved (valueTable values) bounded)
    (hlinear : ∀ c ∈ bare.constraints, c.polynomial.Every (Linear 1))
    (hnumeric : (bare.withValues values).objective.params = []) (k : ℕ) (c : Constraint d)
    (hc : (bare.withValues values).constraints[k]? = some c) :
    c.polynomial.params = [] ∨ (bare.withValues values).isSilent k ∧ bounded k := by
  by_cases hparams : c.polynomial.params = []
  · exact .inl hparams
  refine .inr ?_
  rw [withValues] at hnumeric hc ⊢
  split at hnumeric
  · rename_i hempty
    rw [if_pos hempty] at hc ⊢
    obtain rfl := List.isEmpty_iff.mp hempty
    have hoccurs := has_of_params (hlinear c (List.mem_of_getElem? hc)) hparams
    exact (h.constraints k c hc hoccurs).resolve_right fun hhas => params_ne_nil_of_has hhas hnumeric
  · rename_i hvalues
    rw [if_neg hvalues] at hc ⊢
    obtain ⟨before, hbefore, rfl⟩ := Option.map_eq_some_iff.mp ((List.getElem?_map ..).symm.trans hc)
    have hoccurs := has_of_params_substitute (areNumbers_valueTable values)
      (hlinear before (List.mem_of_getElem? hbefore)) hparams
    rcases h.constraints k before hbefore hoccurs with ⟨hsilent, hbounded⟩ | hhas
    · exact ⟨isSilent_substitute _ hsilent, hbounded⟩
    · exact (params_ne_nil_of_has
        (has_substitute (areNumbers_valueTable values) h.objective hhas) hnumeric).elim

namespace Command

variable {dir : Directory} {configPath : Option String} {source : ModelSource}
  {model : Model document.domain}

/-- When a search begins, the objective has no parameters, and neither has any constraint, unless it is a
silent inequality for which the document gives a range. The weights have to be positive: a penalty with the
weight zero is not there, and one with a negative weight can cancel another. -/
theorem Searches.resolved_or_silent (h : Searches dir configPath source document model)
    (hweights : ∀ c ∈ document.constraints,
      (c.options (dir.settings configPath).constraintOptions).weight.IsPositiveUnder
        (valueTable source.values)) :
    model.objective.params = [] ∧
      ∀ k c, model.constraints[k]? = some c → c.polynomial.params = [] ∨
        model.isSilent k ∧ ∃ written, document.constraints[k]? = some written ∧ written.bounds ≠ none := by
  obtain ⟨bare, hbare, rfl⟩ := h.built
  obtain ⟨hshows, hlinear⟩ := document.showsUnresolved hbare hweights
  exact ⟨h.numeric, hshows.resolved hlinear h.numeric⟩

/-- An inequality with a parameter that is given a value, and with the name of its weight. -/
def weighedText : String :=
  "\x7b\"domain\":\"binary\",\"objective\":[[[\"x\"],1]],\"constraints\":[" ++
  "\x7b\"relation\":\"le\",\"polynomial\":[[[\"x\"],\"a\"],[[\"y\"],1],[[],-1]]," ++
  "\"lam\":\"w\",\"bounds\":[-1,1]\x7d]\x7d"

def weighedName : Directory :=
  .project "" weighedText

/-- With a positive weight the search meets no parameter. -/
theorem Searches.resolved_or_silent_weighedName :
    ∃ (document : ModelDocument) (model : Model document.domain),
      Searches weighedName none ⟨"model.json", [("a", 1), ("w", 2)]⟩ document model ∧
      (∀ c ∈ document.constraints,
        (c.options (weighedName.settings none).constraintOptions).weight.IsPositiveUnder
          (valueTable [("a", 1), ("w", 2)])) ∧
      model.isSilent 0 = false ∧ ∀ c, model.constraints[0]? = some c → c.polynomial.params = [] := by
  have hload : (loaded weighedName none ⟨"model.json", [("a", 1), ("w", 2)]⟩).map (fun result =>
      (decide (result.model.objective.index.size ≤ 24), result.model.isSilent 0)) =
      .ok (true, false) := by
    rw [weighedName, loaded_project]
    decide +kernel
  obtain ⟨document, model, hsearches, hsilent⟩ :=
    exists_searches_of_map (Directory.variableLimit_project (by decide +kernel)) hload
  have hweights : ∀ c ∈ document.constraints,
      (c.options (weighedName.settings none).constraintOptions).weight.IsPositiveUnder
        (valueTable [("a", 1), ("w", 2)]) := by
    have hnames : (ModelDocument.ofText weighedText).map (fun document => decide
        (∀ c ∈ document.constraints,
          (c.options (Config.ofText "").constraintOptions).weight = .param "w")) = .ok true := by
      decide +kernel
    rw [hsearches.ofText_project] at hnames
    intro c hc
    rw [weighedName, Directory.settings_project, of_decide_eq_true (Except.ok.inj hnames) c hc]
    exact ⟨2, by decide, .inr ⟨"w", rfl, by decide +kernel⟩⟩
  refine ⟨document, model, hsearches, hweights, hsilent, fun c hc => ?_⟩
  exact ((hsearches.resolved_or_silent hweights).2 0 c hc).resolve_right fun h => by simp [hsilent] at h

/-- An inequality with a parameter that has no value, which holds by the range that the document gives. -/
def unresolvedName : Directory :=
  .project "" <|
    "\x7b\"domain\":\"binary\",\"objective\":[[[\"x\"],1]],\"constraints\":[" ++
    "\x7b\"relation\":\"le\",\"polynomial\":[[[],\"k\"],[[],-5]],\"bounds\":[-5,0]\x7d]\x7d"

/-- The search is made although the constraint has a parameter, and no solution counts as valid. -/
theorem Searches.unresolved_silent :
    ∃ (document : ModelDocument) (model : Model document.domain),
      Searches unresolvedName none ⟨"model.json", []⟩ document model ∧
      model.constraints.map (·.polynomial.params) = [["k"]] ∧
      (model.bruteforce true).map (fun result => result.2.map model.isSolutionValid) = .ok [false] := by
  have hload : (loaded unresolvedName none ⟨"model.json", []⟩).map (fun result =>
      (decide (result.model.objective.index.size ≤ 24),
        result.model.constraints.map (·.polynomial.params),
        (result.model.bruteforce true).map fun found => found.2.map result.model.isSolutionValid)) =
      .ok (true, [["k"]], .ok [false]) := by
    rw [unresolvedName, loaded_project]
    decide +kernel
  obtain ⟨document, model, hsearches, hfacts⟩ :=
    exists_searches_of_map (Directory.variableLimit_project (by decide +kernel)) hload
  obtain ⟨hparams, hinvalid⟩ := Prod.mk.inj hfacts
  exact ⟨document, model, hsearches, hparams, hinvalid⟩

end Command

end PseudoBoolean
