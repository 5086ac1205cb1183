import PseudoBoolean.Command.Run
import PseudoBoolean.Proofs.Coefficient

/-!
# Runs that search

The command `solve` reads the settings and the document, builds the model, gives the parameters their
values, and starts to search only if the objective has no parameters left and not too many variables.
`Searches` says that a run gets so far, with which document and which model. Then the run answers with the
solutions, or fails in the search, and in every other case it fails before (`solveIn_cases`).
-/

namespace PseudoBoolean

/-- The values of parameters as a table; of several values for one name the last counts. -/
def valueTable (values : List (String × Float)) : Table String Coefficient :=
  Table.ofList (values.map fun (name, x) => (name, Coefficient.ofFloat x))

/-- The model with values for parameters. -/
def Model.withValues {d : Domain} (m : Model d) (values : List (String × Float)) : Model d :=
  if values.isEmpty then m else m.substitute (valueTable values)

/-- What holds of the model and is kept by substitutions holds with values for parameters. -/
theorem Model.of_withValues {d : Domain} {m : Model d} {P : Model d → Prop} (hm : P m)
    (h : ∀ table, P (m.substitute table)) (values : List (String × Float)) :
    P (m.withValues values) := by
  rw [Model.withValues]
  split
  · exact hm
  · exact h _

/-- Giving values to a loaded model substitutes them in the model and leaves its domain alone. -/
theorem LoadedModel.withValues_eq {d : Domain} (m : Model d) (values : List (String × Float)) :
    (⟨d, m⟩ : LoadedModel).withValues values = ⟨d, m.withValues values⟩ := by
  rw [withValues, Model.withValues]
  split <;> rfl

/-- A model whose objective has no parameter left passes the check for numbers. -/
theorem LoadedModel.requireNumeric_eq {loaded : LoadedModel}
    (h : loaded.model.objective.params = []) : loaded.requireNumeric = .ok loaded := by
  rw [requireNumeric, h]
  rfl

/-- The settings that a command finds. -/
def Directory.settings (dir : Directory) (configPath : Option String) : Config :=
  match dir.read (configPath.getD Config.defaultPath) with
  | .ok text => .ofText text
  | .error _ => {}

namespace Command

variable {dir : Directory} {configPath : Option String} {source : ModelSource} {all : Bool}
  {document : ModelDocument} {model : Model document.domain}

/-- What `solve` does with the files of a directory: its outcome, and the directory afterwards. -/
def solveIn (dir : Directory) (configPath : Option String) (source : ModelSource) (all : Bool) :
    Outcome × Directory :=
  ((solve source all).run configPath : StateM Directory Outcome).run dir

/-- The run gets as far as the search, with the model of the document after substitution. -/
structure Searches (dir : Directory) (configPath : Option String) (source : ModelSource)
    (document : ModelDocument) (model : Model document.domain) : Prop where
  read : ∃ text, dir.read source.path = .ok text ∧ ModelDocument.ofText text = .ok document
  built : ∃ bare, document.toModel (dir.settings configPath).constraintOptions = .ok bare ∧
    model = bare.withValues source.values
  numeric : model.objective.params = []
  limited : model.objective.index.size ≤ (dir.settings configPath).variableLimit

/-- The model that a command works with, or why there is none. -/
def loaded (dir : Directory) (configPath : Option String) (source : ModelSource) :
    Except Failure LoadedModel := do
  let text ← (dir.read source.path).mapError (.reading source.path)
  let bare ← (LoadedModel.ofText text (dir.settings configPath).constraintOptions).mapError
    (.loading source.path)
  (bare.withValues source.values).requireNumeric

/-- Loading the settings reads the directory and leaves it as it was. -/
theorem run_loadConfig (dir : Directory) (configPath : Option String) :
    (loadConfig (configPath.getD Config.defaultPath) : StateM Directory Config).run dir =
      (dir.settings configPath, dir) := by
  have hread : (FileAccess.read (configPath.getD Config.defaultPath) :
      StateM Directory (Except FileError String)).run dir =
        (dir.read (configPath.getD Config.defaultPath), dir) := rfl
  rw [loadConfig, StateT.run_bind, hread, Directory.settings]
  cases dir.read (configPath.getD Config.defaultPath) <;> rfl

/-- Loading a model reads the directory and leaves it as it was. -/
theorem run_loadModel (dir : Directory) (configPath : Option String) (source : ModelSource) :
    (loadModel (dir.settings configPath) source : StateM Directory (Except Failure LoadedModel)).run dir =
      (loaded dir configPath source, dir) := by
  have hread : (FileAccess.read source.path : StateM Directory (Except FileError String)).run dir =
      (dir.read source.path, dir) := rfl
  rw [loadModel, StateT.run_bind, hread, loaded]
  cases dir.read source.path with
  | error e => rfl
  | ok text =>
    simp only [Except.mapError, bind, Except.bind]
    cases LoadedModel.ofText text (dir.settings configPath).constraintOptions <;> rfl

/-- Nothing is written, and all that is read are the settings and the document. -/
theorem solveIn_eq (dir : Directory) (configPath : Option String) (source : ModelSource) (all : Bool) :
    solveIn dir configPath source all =
      (printed do solveAnswer (dir.settings configPath) (← loaded dir configPath source) all, dir) := by
  rw [solveIn, run, StateT.run_bind, run_loadConfig]
  change (StateT.run _ dir) = _
  rw [StateT.run_bind, run_loadModel]
  rfl

theorem eq_ok_of_mapError {ε ε' α : Type} {x : Except ε α} {f : ε → ε'} {a : α}
    (h : x.mapError f = .ok a) : x = .ok a := by
  cases x with
  | error e => cases h
  | ok b => exact congrArg _ (Except.ok.inj h)

/-- What a successful load went through: the text of the file, its document, the bare model with the
values put in, and an objective without parameters. -/
theorem exists_of_loaded {result : LoadedModel} (h : loaded dir configPath source = .ok result) :
    ∃ (document : ModelDocument) (model : Model document.domain), result = ⟨document.domain, model⟩ ∧
      (∃ text, dir.read source.path = .ok text ∧ ModelDocument.ofText text = .ok document) ∧
      (∃ bare, document.toModel (dir.settings configPath).constraintOptions = .ok bare ∧
        model = bare.withValues source.values) ∧ model.objective.params = [] := by
  obtain ⟨text, htext, h⟩ := exists_of_bind_eq_ok h
  obtain ⟨bare, hbare, h⟩ := exists_of_bind_eq_ok h
  obtain ⟨document, hdocument, hload⟩ := exists_of_bind_eq_ok (eq_ok_of_mapError hbare)
  obtain ⟨m, hm, hload⟩ := exists_of_bind_eq_ok hload
  obtain rfl := Except.ok.inj hload
  rw [LoadedModel.withValues_eq, LoadedModel.requireNumeric] at h
  split at h
  · rename_i hnumeric
    obtain rfl := Except.ok.inj h
    exact ⟨document, _, rfl, ⟨text, eq_ok_of_mapError htext, hdocument⟩, ⟨m, hm, rfl⟩,
      List.isEmpty_iff.mp hnumeric⟩
  · cases h

/-- Under the conditions of a search, loading succeeds with the model that is searched. -/
theorem Searches.loaded_eq (h : Searches dir configPath source document model) :
    loaded dir configPath source = .ok ⟨document.domain, model⟩ := by
  obtain ⟨text, htext, hdocument⟩ := h.read
  obtain ⟨bare, hbare, rfl⟩ := h.built
  have hload : LoadedModel.ofText text (dir.settings configPath).constraintOptions =
      .ok ⟨document.domain, bare⟩ := by
    simp only [LoadedModel.ofText, hdocument, hbare, bind, Except.bind, pure, Except.pure]
  simp only [loaded, htext, hload, Except.mapError, bind, Except.bind, LoadedModel.withValues_eq]
  exact LoadedModel.requireNumeric_eq h.numeric

/-- A loaded model whose objective is within the limit is one that the command searches. -/
theorem exists_searches_of_loaded {result : LoadedModel}
    (h : loaded dir configPath source = .ok result)
    (hlimit : result.model.objective.index.size ≤ (dir.settings configPath).variableLimit) :
    ∃ (document : ModelDocument) (model : Model document.domain), result = ⟨document.domain, model⟩ ∧
      Searches dir configPath source document model := by
  obtain ⟨document, model, rfl, hread, hbuilt, hnumeric⟩ := exists_of_loaded h
  exact ⟨document, model, rfl, hread, hbuilt, hnumeric, hlimit⟩

/-- What is computed of the model that is loaded holds of a model that is searched, if the limit is kept. -/
theorem exists_searches_of_map {α : Type} {facts : LoadedModel → α} {expected : α} {limit : ℕ}
    (hlimit : (dir.settings configPath).variableLimit = limit)
    (h : (loaded dir configPath source).map (fun result =>
      (decide (result.model.objective.index.size ≤ limit), facts result)) = .ok (true, expected)) :
    ∃ (document : ModelDocument) (model : Model document.domain),
      Searches dir configPath source document model ∧ facts ⟨document.domain, model⟩ = expected := by
  obtain ⟨result, hloaded, hfacts⟩ := exists_of_map_eq_ok h
  obtain ⟨hsize, hfacts⟩ := Prod.mk.inj hfacts
  obtain ⟨document, model, rfl, hsearches⟩ :=
    exists_searches_of_loaded hloaded (hlimit ▸ of_decide_eq_true hsize)
  exact ⟨document, model, hsearches, hfacts⟩

/-- A run that gets as far as the search answers with its result. -/
theorem Searches.solveIn_eq (h : Searches dir configPath source document model) (all : Bool) :
    solveIn dir configPath source all =
      (printed ((model.solveJson all).mapError .computing), dir) := by
  rw [Command.solveIn_eq, h.loaded_eq]
  change (printed (solveAnswer _ _ all), dir) = _
  rw [solveAnswer, if_neg (not_lt.mpr h.limited)]

/-- A run of `solve` gets as far as the search, or it fails before. -/
theorem solveIn_cases (dir : Directory) (configPath : Option String) (source : ModelSource)
    (all : Bool) :
    (∃ (document : ModelDocument) (model : Model document.domain),
      Searches dir configPath source document model) ∨
    ∃ cause, solveIn dir configPath source all = (.failed cause, dir) ∧ ∀ e, cause ≠ .computing e := by
  rw [solveIn_eq]
  cases hloaded : loaded dir configPath source with
  | error cause =>
    refine .inr ⟨cause, rfl, ?_⟩
    rintro e rfl
    rw [loaded] at hloaded
    cases htext : dir.read source.path with
    | error e =>
      rw [htext] at hloaded
      cases hloaded
    | ok text =>
      rw [htext] at hloaded
      cases hload : LoadedModel.ofText text (dir.settings configPath).constraintOptions with
      | error e =>
        simp only [Except.mapError, bind, Except.bind, hload] at hloaded
        cases hloaded
      | ok bare =>
        simp only [Except.mapError, bind, Except.bind, hload, LoadedModel.requireNumeric] at hloaded
        split at hloaded <;> cases hloaded
  | ok result =>
    obtain ⟨document, model, rfl, hread, hbuilt, hnumeric⟩ := exists_of_loaded hloaded
    by_cases hlimit : model.objective.index.size ≤ (dir.settings configPath).variableLimit
    · exact .inl ⟨document, model, hread, hbuilt, hnumeric, hlimit⟩
    · refine .inr ⟨.tooManyVariables model.objective.index.size (dir.settings configPath).variableLimit,
        ?_, nofun⟩
      change (printed (solveAnswer _ _ all), dir) = _
      rw [solveAnswer, if_pos (not_le.mp hlimit)]
      rfl

/-- A run that prints something has searched and found what it prints. -/
theorem exists_searches_of_done {output : String} {after : Directory}
    (h : solveIn dir configPath source all = (.done output, after)) :
    ∃ (document : ModelDocument) (model : Model document.domain) (answer : Json),
      Searches dir configPath source document model ∧ model.solveJson all = .ok answer ∧
        output = answer.pretty ++ "\n" := by
  rcases solveIn_cases dir configPath source all with ⟨document, model, hsearches⟩ | ⟨cause, hfailed, -⟩
  · rw [hsearches.solveIn_eq] at h
    cases hanswer : model.solveJson all with
    | error e =>
      rw [hanswer] at h
      cases (Prod.mk.inj h).1
    | ok answer =>
      rw [hanswer] at h
      exact ⟨document, model, answer, hsearches, hanswer, (Outcome.done.inj (Prod.mk.inj h).1).symm⟩
  · rw [hfailed] at h
    cases (Prod.mk.inj h).1

end Command

/-! ## Settings and a document side by side -/

namespace Directory

/-- The directory with a text of settings at the default path, and a document. -/
def project (settings document : String) : Directory :=
  ⟨[(⟨.above 0, [Config.defaultPath]⟩, settings), (⟨.above 0, ["model.json"]⟩, document)]⟩

/-- A name without slashes is looked up in the working directory. -/
theorem read_name {dir : Directory} {name text : String} (hsplit : name.splitOn "/" = [name])
    (hstart : name.startsWith "/" = false) (hname : name ≠ "" ∧ name ≠ "." ∧ name ≠ "..")
    (hsize : name.utf8ByteSize ≤ nameLimit) (hroot : dir.text? ⟨.above 0, []⟩ = none)
    (htext : dir.text? ⟨.above 0, [name]⟩ = some text) : dir.read name = .ok text := by
  obtain ⟨hempty, hdot, hup⟩ := hname
  have hroute : route name = .ok (⟨.above 0, []⟩, [name]) := by
    have hlimit : ¬ pathLimit ≤ name.utf8ByteSize := by
      simp only [nameLimit, pathLimit] at *
      omega
    rw [route, if_neg hempty, if_neg hlimit, hstart, hsplit]
    rfl
  have hfollow : dir.follow ⟨.above 0, []⟩ [name] = .ok ⟨.above 0, [name]⟩ := by
    simp [follow, hroot, isDirectory, hempty, hdot, hup, hsize.not_gt, Place.child]
  simp only [read, hroute, hfollow, htext, bind, Except.bind]

/-- The default settings file lies in the directory itself. -/
theorem splitOn_defaultPath : Config.defaultPath.splitOn "/" = [Config.defaultPath] := by
  rw [String.splitOn, if_neg (by decide)]
  repeat rw [String.splitOnAux, if_neg (by decide +kernel), if_neg (by decide +kernel)]
  rw [String.splitOnAux, if_pos (by decide +kernel)]
  decide +kernel

theorem splitOn_documentPath : "model.json".splitOn "/" = ["model.json"] := by
  rw [String.splitOn, if_neg (by decide)]
  repeat rw [String.splitOnAux, if_neg (by decide +kernel), if_neg (by decide +kernel)]
  rw [String.splitOnAux, if_pos (by decide +kernel)]
  decide +kernel

/-- The model file of a small project is the document it was made with. -/
theorem read_project (settings document : String) :
    (project settings document).read "model.json" = .ok document :=
  read_name splitOn_documentPath (by decide +kernel) (by decide) (by decide +kernel) rfl rfl

/-- The settings of a small project are those of its settings file. -/
theorem settings_project (settings document : String) :
    (project settings document).settings none = .ofText settings := by
  have hread : (project settings document).read Config.defaultPath = .ok settings :=
    read_name splitOn_defaultPath (by decide +kernel) (by decide +kernel) (by decide +kernel) rfl rfl
  simp only [Directory.settings, Option.getD_none, hread]

theorem variableLimit_project {settings document : String} {limit : ℕ}
    (h : (Config.ofText settings).variableLimit = limit) :
    ((project settings document).settings none).variableLimit = limit := by
  rw [settings_project, h]

end Directory

/-- With the files side by side, the model is that of the two texts. -/
theorem Command.loaded_project (settings document : String) (values : List (String × Float)) :
    loaded (.project settings document) none ⟨"model.json", values⟩ = (do
      let bare ← (LoadedModel.ofText document (Config.ofText settings).constraintOptions).mapError
        (.loading "model.json")
      (bare.withValues values).requireNumeric) := by
  rw [loaded, Directory.read_project, Directory.settings_project]
  rfl

/-- A search in a small project is a search of the document the project was made with. -/
theorem Command.Searches.ofText_project {settings document : String} {values : List (String × Float)}
    {written : ModelDocument} {model : Model written.domain}
    (h : Searches (.project settings document) none ⟨"model.json", values⟩ written model) :
    ModelDocument.ofText document = .ok written := by
  obtain ⟨text, htext, hread⟩ := h.read
  rw [Directory.read_project] at htext
  rwa [Except.ok.inj htext]

end PseudoBoolean
