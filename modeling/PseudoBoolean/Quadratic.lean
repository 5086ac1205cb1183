import PseudoBoolean.Polynomial.Conversion

/-! # Quadratic forms

A quadratic form is a polynomial whose terms have at most two variables: a QUBO over the binary domain,
an Ising form over the spin domain.
-/

namespace PseudoBoolean

/-- The largest number of variables in a term of a quadratic form. -/
def quadraticDegree : Nat := 2

/-- A polynomial whose terms have at most two variables. -/
structure Quadratic (d : Domain) (V : Type) where
  polynomial : Polynomial d V
  degree_le : ∀ t ∈ polynomial.terms, t.1.length ≤ quadraticDegree

/-- A quadratic form over the binary domain. -/
abbrev Qubo (V : Type) : Type := Quadratic .binary V

/-- A quadratic form over the spin domain. -/
abbrev Ising (V : Type) : Type := Quadratic .spin V

namespace Quadratic

variable {d : Domain} {V : Type} [Variable V]

/-- The polynomial as a quadratic form, or its first term that is too large. -/
def ofPolynomial (p : Polynomial d V) : Except Error (Quadratic d V) :=
  match h : List.find? (fun t => decide (quadraticDegree < t.1.length)) p.terms with
  | some t => .error (.degreeExceeded (Term.text t.1) t.1.length quadraticDegree)
  | none => .ok ⟨p, fun t ht => by simpa using List.find?_eq_none.1 h t ht⟩

/-- The Ising form of a QUBO. -/
def toIsing (q : Qubo V) : Except Error (Ising V) :=
  ofPolynomial (q.polynomial.toDomain .spin)

/-- The QUBO of an Ising form. -/
def toQubo (q : Ising V) : Except Error (Qubo V) :=
  ofPolynomial (q.polynomial.toDomain .binary)

end Quadratic

end PseudoBoolean
