import PseudoBoolean.Command.Convert
import PseudoBoolean.Command.Failure
import PseudoBoolean.Command.Solve
import PseudoBoolean.Config
import PseudoBoolean.Document.Compile

/-! # Running commands

The settings are read first, and the document of the model after them. A command prints one JSON document
or fails with one report.
-/

namespace PseudoBoolean

/-- How a command ends. -/
inductive Outcome where
  /-- It has printed a text. -/
  | done (output : String)
  | failed (cause : Failure)
  /-- The words were not understood. -/
  | usage

namespace Outcome

/-- The exit code. -/
def code : Outcome → UInt8
  | done _ => 0
  | failed _ => 1
  | usage => 2

/-- The text that has been printed. -/
def output : Outcome → String
  | done output => output
  | _ => ""

end Outcome

/-- The answer to a request for help. -/
def helpText : String :=
  "Usage: pbo [--config PATH] [-v]... <COMMAND>\n\n" ++
  "Commands:\n" ++
  "  convert MODEL --to qubo|ising|pubo|hising [--degree N] [--set NAME=VALUE]...\n" ++
  "  solve MODEL [--all] [--set NAME=VALUE]...\n" ++
  "  init-config\n"

/-- The answer to a request for the version. -/
def versionText : String := "pbo 0.1.0\n"

namespace LoadedModel

/-- The model with values for parameters; of several values for one name the last counts. -/
def withValues (loaded : LoadedModel) (values : List (String × Float)) : LoadedModel :=
  if values.isEmpty then loaded
  else
    let table := Table.ofList (values.map fun (name, x) => (name, Coefficient.ofFloat x))
    { loaded with model := loaded.model.substitute table }

/-- The model, if its objective has no parameters left. -/
def requireNumeric (loaded : LoadedModel) : Except Failure LoadedModel :=
  let names := loaded.model.objective.params
  if names.isEmpty then .ok loaded else .error (.unresolved names)

end LoadedModel

namespace Command

variable {m : Type → Type} [Monad m] [FileAccess m]

/-- The settings at a path, the defaults if there are none. -/
def loadConfig (path : String) : m Config := do
  match ← FileAccess.read path with
  | .ok text => return .ofText text
  | .error _ => return {}

/-- The model of a document with values for its parameters. -/
def loadModel (config : Config) (source : ModelSource) : m (Except Failure LoadedModel) := do
  match ← FileAccess.read source.path with
  | .error e => return .error (.reading source.path e)
  | .ok text =>
    match LoadedModel.ofText text config.constraintOptions with
    | .error e => return .error (.loading source.path e)
    | .ok loaded => return (loaded.withValues source.values).requireNumeric

/-- The outcome of a command that answers with a JSON document. -/
def printed : Except Failure Json → Outcome
  | .ok answer => .done (answer.pretty ++ "\n")
  | .error cause => .failed cause

/-- The answer for the best assignments, unless there are too many variables. -/
def solveAnswer (config : Config) (loaded : LoadedModel) (all : Bool) : Except Failure Json :=
  let count := loaded.model.objective.index.size
  if config.variableLimit < count then .error (.tooManyVariables count config.variableLimit)
  else (loaded.model.solveJson all).mapError .computing

/-- Carries out a command. -/
def run (configPath : Option String) : Command → m Outcome
  | convert source form degree => do
    let config ← loadConfig (configPath.getD Config.defaultPath)
    let loaded ← loadModel config source
    return printed do
      ((← loaded).model.convert form (degree <|> config.degree)).mapError .computing
  | solve source all => do
    let config ← loadConfig (configPath.getD Config.defaultPath)
    let loaded ← loadModel config source
    return printed do solveAnswer config (← loaded) all
  | initConfig => do
    let path := configPath.getD Config.defaultPath
    let config ← loadConfig path
    match ← FileAccess.write path config.text with
    | .ok () => return .done (path ++ "\n")
    | .error e => return .failed (.writing path e)

/-- Carries out the command that the words of a command line stand for. -/
def runWords (words : List String) : m Outcome := do
  match Invocation.ofWords words with
  | .ok invocation => invocation.command.run invocation.configPath
  | .error .help => return .done helpText
  | .error .version => return .done versionText
  | .error .usage => return .usage

end Command

end PseudoBoolean
