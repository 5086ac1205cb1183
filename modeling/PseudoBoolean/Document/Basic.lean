import PseudoBoolean.Json.Written
import PseudoBoolean.Label
import PseudoBoolean.Polynomial.Evaluation
import PseudoBoolean.Relation

/-! # Documents

A model as a user writes it down: the domain, the objective as a list of terms with coefficients, and the
constraints with the options that they set themselves. Terms are not checked until the document is
compiled, so that a wrong one can be named.
-/

namespace PseudoBoolean

/-- A coefficient as written: a whole number, another number, or the name of a parameter. -/
inductive WrittenCoefficient where
  | int (n : Int)
  | float (x : Float)
  | param (name : String)

/-- The coefficient. -/
def WrittenCoefficient.toCoefficient : WrittenCoefficient → Coefficient
  | int n => .num (.ofInt n)
  | float x => .num (.float x)
  | param name => .param name

/-- A term as written, not yet checked, with its coefficient. -/
structure WrittenTerm where
  key : Json
  coefficient : WrittenCoefficient

/-- A constraint as written. -/
structure ConstraintDocument where
  relation : Relation
  polynomial : List WrittenTerm
  weight : Option WrittenCoefficient
  logarithmic : Option Bool
  bounds : Option (Float × Float)

/-- A model as written. -/
structure ModelDocument where
  domain : Domain
  objective : List WrittenTerm
  constraints : List ConstraintDocument

namespace Label

/-- The JSON form of a label: a number for a number, the text for any other. -/
def toJson : Label → Json
  | int n => .integer n.toInt
  | label => .string label.text

/-- The label that a JSON value stands for: a whole number of 64 bits with a sign, or a text. -/
def ofJson? : Json → Option Label
  | .integer n => 
    if Int64.minValue.toInt ≤ n ∧ n ≤ Int64.maxValue.toInt then some (int (.ofInt n)) else none
  | .string s => some (ofText s)
  | _ => none

end Label

end PseudoBoolean
