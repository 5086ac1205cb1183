import PseudoBoolean.Model.Basic
import PseudoBoolean.Polynomial.Minimum

/-! # Solutions of models

A solution is checked against the constraints as they were demanded, and the search for the least value
of the objective admits only assignments that pass, so that a penalty that is too small does no harm.
-/

namespace PseudoBoolean.Model

variable {d : Domain}

/-- Whether an assignment satisfies every constraint. A variable that it leaves out, or a parameter
without a value, counts as a violation. -/
def isSolutionValid (m : Model d) (a : Assignment Label) : Bool :=
  m.constraints.all fun c =>
    match c.polynomial.valueNumber a with
    | .ok x => c.relation.holds x
    | .error _ => false

/-- An assignment without the variables that were introduced. -/
def withoutAncillas (m : Model d) (a : Assignment Label) : Assignment Label :=
  m.objective.withoutAncillas a

/-- The variables of a search: those that the objective has numbered, then those that only the
constraints have. -/
def enumeratedVariables (m : Model d) : List Label :=
  m.constraints.foldl (fun vars c =>
    c.polynomial.vars.foldl (fun vars v => if vars.contains v then vars else vars ++ [v]) vars)
    m.objective.index.labels

/-- The least value of the objective among the assignments that satisfy every constraint, with those that
have it, without ancillas: all of them, or the first. If no assignment satisfies every constraint, the
constraints are left aside. -/
def bruteforce (m : Model d) (all : Bool) : Except Error (Number × List (Assignment Label)) := do
  let vars := m.enumeratedVariables
  let (value, solutions) ← match ← m.objective.minimizeWhere vars all m.isSolutionValid with
    | (some value, solutions) => pure (value, solutions)
    | (none, _) => m.objective.minimize vars all
  return (value, solutions.map m.withoutAncillas)

/-- All solutions with the least value. -/
def solveAll (m : Model d) : Except Error (List (Assignment Label)) := do
  return (← m.bruteforce true).2

/-- The first solution with the least value. -/
def solve (m : Model d) : Except Error (Assignment Label) := do
  return (← m.bruteforce false).2.getLast?.getD []

end PseudoBoolean.Model
