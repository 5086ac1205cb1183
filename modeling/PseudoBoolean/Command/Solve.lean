import PseudoBoolean.Document.Writer
import PseudoBoolean.Model.Search

/-! # Printing solutions

The answer holds the least value of the objective, the assignments that have it, each with whether it
satisfies the constraints, and what is known about the constraints.
-/

namespace PseudoBoolean

namespace Model

variable {d : Domain}

/-- An assignment by the texts of its labels. -/
def assignmentJson (a : Assignment Label) : Json :=
  .object (Table.ofList (a.map fun (label, x) => (label.text, .integer x)))

/-- The answer for the least value, with all assignments that have it or with one. -/
def solveJson (m : Model d) (all : Bool) : Except Error Json := do
  let (value, solutions) ← m.bruteforce all
  return .object [
    ("domain", .string d.text),
    ("variables", .integer m.objective.index.size),
    ("energy", .float value.toFloat),
    ("solutions", .array (solutions.map fun a =>
      .object [("assignment", assignmentJson a), ("valid", .bool (m.isSolutionValid a))])),
    ("diagnostics", .array (m.diagnostics.map fun diagnostic => .string diagnostic.text))]

end Model

end PseudoBoolean
