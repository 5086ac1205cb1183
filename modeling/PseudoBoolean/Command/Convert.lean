import PseudoBoolean.Command.Arguments
import PseudoBoolean.Document.Writer
import PseudoBoolean.Model.Basic
import PseudoBoolean.Polynomial.CanonicalForm

/-! # Printing a canonical form

The answer holds the form of the objective together with what is needed to take a solution back: the
number of every label, and the origin of every ancilla.
-/

namespace PseudoBoolean

namespace Model

variable {d : Domain}

/-- The labels with their numbers, by number. -/
def mappingJson (m : Model d) : Json :=
  .array (m.objective.index.labels.zipIdx.map fun (label, i) =>
    .array [label.toJson, .integer i])

/-- The answer that presents a polynomial as a form of the model. -/
def formJson {e : Domain} (m : Model d) (form : Form) (p : Polynomial e Nat) : Except Error Json := do
  return .object [
    ("form", .string form.text),
    ("domain", .string e.text),
    ("terms", ← p.termsToJson fun (i : Nat) => .integer i),
    ("mapping", m.mappingJson),
    ("ancillas", .array (p.ancillas.map fun (i, origin) =>
      .object [("index", .integer i), ("origin", .string origin.text)]))]

/-- The answer for a form. The bound on the degree is that of forms which are not quadratic. -/
def convert (m : Model d) (form : Form) (degree : Option Nat) : Except Error Json :=
  match form with
  | .qubo => do m.formJson form (← m.objective.toQubo).polynomial
  | .ising => do m.formJson form (← m.objective.toIsing).polynomial
  | .pubo => do m.formJson form (← m.objective.toPubo degree .auto)
  | .hising => do m.formJson form (← m.objective.toHising degree .auto)

end Model

end PseudoBoolean
