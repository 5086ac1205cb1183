import PseudoBoolean.Polynomial.Arithmetic

/-! # Values and bounds

The value of a polynomial at an assignment, and bounds of its values over all assignments.
-/

namespace PseudoBoolean

/-- The values of some variables, by variable. -/
abbrev Assignment (V : Type) : Type := Table V Int

namespace Polynomial

variable {d : Domain} {V : Type} [Variable V]

/-- The value of a variable, which must be assigned and in the domain. -/
def valueOf (d : Domain) (a : Assignment V) (v : V) : Except Error Int :=
  match a.get? v with
  | none => .error (.malformed (.valueMissing (Variable.text v)))
  | some x =>
    if d.contains x then .ok x
    else .error (.malformed (.valueOutside x (Variable.text v) d))

/-- The product of the values of the variables of a term. -/
def termValue (d : Domain) (a : Assignment V) (t : Term V) : Except Error Int :=
  t.foldlM (fun product v => do return product * (← valueOf d a v)) 1

/-- Adds the contribution of a coefficient to a sum, where `sign` is the value of its term. -/
def addSigned (sum : Coefficient) (sign : Int) (c : Coefficient) : Coefficient :=
  if sign = 1 then sum + c else if sign = -1 then sum - c else sum

/-- The value at an assignment to all variables that occur. -/
def value (p : Polynomial d V) (a : Assignment V) : Except Error Coefficient :=
  p.terms.foldlM (fun sum t => do return addSigned sum (← termValue d a t.1) t.2) 0

/-- The value at an assignment as a number. -/
def valueNumber (p : Polynomial d V) (a : Assignment V) : Except Error Number := do
  Error.ofCoefficient (← p.value a).toNumber

omit [Variable V] in
/-- Whether an assignment is admitted. A polynomial by itself demands nothing. -/
def isSolutionValid (_p : Polynomial d V) (_a : Assignment V) : Bool :=
  true

omit [Variable V] in
/-- A lower and an upper bound of the values over all assignments: each term by itself is counted with
its least and its greatest contribution. -/
def bounds (p : Polynomial d V) : Except Error (Number × Number) := do
  return (← p.numericTerms).foldl (fun (lower, upper) (t, c) =>
    if t.isEmpty then (lower + c, upper + c)
    else (lower + (d.termRange c).1, upper + (d.termRange c).2)) (0, 0)

end Polynomial

end PseudoBoolean
