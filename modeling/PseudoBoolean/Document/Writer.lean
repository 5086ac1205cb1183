import PseudoBoolean.Document.Basic
import PseudoBoolean.Json.Printer
import PseudoBoolean.Polynomial.Evaluation

/-! # Writing documents

The JSON forms of a document and of a polynomial with numbers as coefficients.
-/

namespace PseudoBoolean

/-- The JSON form of a coefficient. -/
def WrittenCoefficient.toJson : WrittenCoefficient → Json
  | int n => .integer n
  | float x => .float x
  | param name => .string name

/-- The JSON form of a list of terms. -/
def WrittenTerm.listToJson (terms : List WrittenTerm) : Json :=
  .array (terms.map fun t => .array [t.key, t.coefficient.toJson])

/-- A member for a field that is written only if it is set. -/
def Json.optionalMember {α : Type} (name : String) (write : α → Json) :
    Option α → List (String × Json)
  | none => []
  | some a => [(name, write a)]

/-- The JSON form of a constraint. -/
def ConstraintDocument.toJson (c : ConstraintDocument) : Json :=
  .object <| [("relation", .string c.relation.word),
    ("polynomial", WrittenTerm.listToJson c.polynomial)] ++
    Json.optionalMember "lam" WrittenCoefficient.toJson c.weight ++
    Json.optionalMember "log_trick" Json.bool c.logarithmic ++
    Json.optionalMember "bounds" (fun (a, b) => .array [.float a, .float b]) c.bounds

/-- The JSON form of a document. -/
def ModelDocument.toJson (document : ModelDocument) : Json :=
  .object [("domain", .string document.domain.text),
    ("objective", WrittenTerm.listToJson document.objective),
    ("constraints", .array (document.constraints.map ConstraintDocument.toJson))]

namespace Polynomial

variable {d : Domain} {V : Type}

/-- The terms of a polynomial in JSON, with the JSON form of a variable; the coefficients must be
numbers and are written as doubles. -/
def termsToJson (variableJson : V → Json) (p : Polynomial d V) : Except Error Json := do
  return .array ((← p.numericTerms).map fun (t, c) =>
    .array [.array (t.map variableJson), .float c.toFloat])

/-- The JSON form of a polynomial: its domain and its terms. -/
def toJson (variableJson : V → Json) (p : Polynomial d V) : Except Error Json := do
  return .object [("domain", .string d.text), ("terms", ← p.termsToJson variableJson)]

end Polynomial

end PseudoBoolean
