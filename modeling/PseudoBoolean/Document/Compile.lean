import PseudoBoolean.Document.Reader
import PseudoBoolean.Json.Printer
import PseudoBoolean.Model.Basic

/-! # From documents to models

The objective is built first and the constraints are added in their order, each with the options that it
sets, and defaults for the others. The keys of a polynomial are checked before its terms are added up.
-/

namespace PseudoBoolean

/-- The labels of a key, which must be a list of numbers and texts. -/
def WrittenTerm.labels (t : WrittenTerm) : Except Error (List Label) :=
  let labels := match t.key with
    | .array items => items.mapM Label.ofJson?
    | _ => none
  match labels with
  | some labels => .ok labels
  | none => .error (.invalidKey t.key.compact)

/-- The polynomial of a list of terms. -/
def WrittenTerm.polynomial (d : Domain) (terms : List WrittenTerm) :
    Except Error (Polynomial d Label) := do
  return .ofTerms (← terms.mapM fun t => do
    return (← t.labels, t.coefficient.toCoefficient))

namespace ConstraintDocument

/-- The options of a constraint: what it sets itself, and defaults for the rest. -/
def options (c : ConstraintDocument) (defaults : ConstraintOptions) : ConstraintOptions where
  weight := c.weight.elim defaults.weight WrittenCoefficient.toCoefficient
  logarithmic := c.logarithmic.getD defaults.logarithmic
  bounds := c.bounds.elim defaults.bounds fun (a, b) => some (.float a, .float b)

/-- Adds a constraint to a model. -/
def addTo {d : Domain} (c : ConstraintDocument) (defaults : ConstraintOptions) (m : Model d) :
    Except Error (Model d) := do
  let p ← WrittenTerm.polynomial d c.polynomial
  let (m, outcome) := m.addConstraint c.relation p (c.options defaults)
  outcome.map fun _ => m

end ConstraintDocument

namespace ModelDocument

/-- The model of a document. -/
def toModel (document : ModelDocument) (defaults : ConstraintOptions) :
    Except Error (Model document.domain) := do
  let objective ← WrittenTerm.polynomial document.domain document.objective
  document.constraints.foldlM (fun m c => c.addTo defaults m) (.ofObjective objective)

end ModelDocument

/-- A model together with the domain of its variables. -/
structure LoadedModel where
  domain : Domain
  model : Model domain

/-- The model of a document given as text. -/
def LoadedModel.ofText (text : String) (defaults : ConstraintOptions) : Except Error LoadedModel := do
  let document ← ModelDocument.ofText text
  return ⟨document.domain, ← document.toModel defaults⟩

end PseudoBoolean
