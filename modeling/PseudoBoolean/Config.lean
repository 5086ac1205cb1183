import PseudoBoolean.Model.Basic
import PseudoBoolean.Toml.Reader

/-! # Configuration

Settings that apply to every run of the command, kept in a TOML file. A setting that the file leaves out
has its default. A file that is not well-formed, or that gives a setting a value of the wrong kind,
counts as absent as a whole.
-/

namespace PseudoBoolean

/-- A double as a coefficient: exact if it is a whole number of 64 bits with a sign. -/
def Coefficient.ofFloat (x : Float) : Coefficient :=
  match Binary64.toRat? x with
  | some q =>
    if q.den = 1 ∧ Int64.minValue.toInt < q.num ∧ q.num ≤ Int64.maxValue.toInt then .num (.exact q)
    else .num (.float x)
  | none => .num (.float x)

/-- The settings of the command. -/
structure Config where
  /-- The weight of penalties for constraints that set none. -/
  weight : Float := 1.0
  /-- Whether slack has weights `1, 2, 4, …` for constraints that do not say. -/
  logarithmic : Bool := true
  /-- The bound on the degree of forms that are not quadratic, where none is asked for. -/
  degree : Option Nat := none
  /-- The largest number of variables for which a search over all assignments is made. -/
  variableLimit : Nat := 24

namespace Config

/-- Where the settings are looked for unless another path is given. -/
def defaultPath : String := "pbo_config.toml"

/-- The options of a constraint that sets none itself. -/
def constraintOptions (config : Config) : ConstraintOptions where
  weight := .ofFloat config.weight
  logarithmic := config.logarithmic

/-! ## Reading -/

/-- A setting that is a number. -/
def float? : Toml → Option Float
  | .float x => some x
  | .integer n => some (Binary64.ofRat n)
  | _ => none

/-- A setting that is a truth value. -/
def bool? : Toml → Option Bool
  | .bool b => some b
  | _ => none

/-- A setting that is a count. -/
def nat? : Toml → Option Nat
  | .integer (.ofNat n) => some n
  | _ => none

/-- A setting that may be absent. -/
def optional? {α : Type} (read : Toml → Option α) : Option Toml → Option (Option α)
  | none => some none
  | some v => (read v).map some

/-- The settings that the members of a file give. -/
def ofMembers? (members : List (String × Toml)) : Option Config := do
  let weight ← optional? float? (members.lookup "lam")
  let logarithmic ← optional? bool? (members.lookup "log_trick")
  let degree ← optional? nat? (members.lookup "degree")
  let variableLimit ← optional? nat? (members.lookup "max_bruteforce_variables")
  let standard : Config := {}
  return {
    weight := weight.getD standard.weight
    logarithmic := logarithmic.getD standard.logarithmic
    degree
    variableLimit := variableLimit.getD standard.variableLimit }

/-- The settings of a text, the defaults if it gives none. -/
def ofText (text : String) : Config :=
  ((Toml.parse? text).bind ofMembers?).getD {}

/-! ## Writing -/

/-- Numbers in TOML: positional at any size, and a whole number shows `.0`. -/
def numberStyle : Decimal.Style :=
  { tie := .up, positional := none, point := true, nan := "nan", infinity := "inf" }

/-- The settings with their values as written. -/
def entries (config : Config) : List (String × String) :=
  [("lam", numberStyle.text config.weight), ("log_trick", toString config.logarithmic)] ++
    (config.degree.map fun n => ("degree", toString n)).toList ++
    [("max_bruteforce_variables", toString config.variableLimit)]

/-- The settings as a TOML document. -/
def text (config : Config) : String :=
  String.join (config.entries.map fun (name, value) => name ++ " = " ++ value ++ "\n")

end Config

end PseudoBoolean
