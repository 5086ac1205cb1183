import PseudoBoolean.Polynomial.Reduction

/-! # Canonical forms

The forms in which a polynomial is handed to a solver. The variables are numbered from zero, the domain
is the one asked for, and a bound on the degree is reached by reduction over the binary domain.
-/

namespace PseudoBoolean.Polynomial

variable {d : Domain} {V : Type} [Variable V]

/-- The polynomial with every variable replaced by its number. -/
def toIndexed (p : Polynomial d V) : Polynomial d Nat :=
  let terms := p.terms.foldl (fun terms t =>
    Table.insert (Term.normalize d (t.1.filterMap p.index.indexOf?)) t.2 terms) []
  ofParts terms (VariableIndex.identity p.index.size) (p.ancillas.relabel p.index.indexOf?)

/-- The binary form with at most `degree` variables in a term; with any number if absent. -/
def toPubo (p : Polynomial d V) (degree : Option Nat) (weight : ReductionWeight) :
    Except Error (Polynomial .binary Nat) := do
  if let some target := degree then checkTarget target
  (p.toIndexed.toDomain .binary).reduce degree weight

/-- Whether a bound on the degree is met. -/
def meets (p : Polynomial d V) (degree : Option Nat) : Bool :=
  match degree with
  | none => true
  | some target => p.degree ≤ target

/-- The spin form with at most `degree` variables in a term; with any number if absent. A polynomial
that meets the bound is converted as it is. -/
def toHising (p : Polynomial d V) (degree : Option Nat) (weight : ReductionWeight) :
    Except Error (Polynomial .spin Nat) := do
  if let some target := degree then checkTarget target
  let indexed := p.toIndexed
  if indexed.meets degree then return indexed.toDomain .spin
  else return (← (indexed.toDomain .binary).reduce degree weight).toDomain .spin

/-- The quadratic binary form. -/
def toQubo (p : Polynomial d V) : Except Error (Qubo Nat) := do
  Quadratic.ofPolynomial (← p.toPubo (some quadraticDegree) .auto)

/-- The quadratic spin form. -/
def toIsing (p : Polynomial d V) : Except Error (Ising Nat) := do
  Quadratic.ofPolynomial (← p.toHising (some quadraticDegree) .auto)

end PseudoBoolean.Polynomial
