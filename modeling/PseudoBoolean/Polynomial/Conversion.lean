import PseudoBoolean.Polynomial.Arithmetic

/-! # Change of domain

Every variable of one domain is `a + b * w` in terms of a variable `w` of the other. A term with `k`
variables becomes the sum over its subsets `s`, with the coefficient multiplied by
`a ^ (k - |s|) * b ^ |s|`. A subset of a term in normal form is in normal form in either domain, so that
collecting equal terms is all that is left to do.
-/

namespace PseudoBoolean.Polynomial

variable {d : Domain} {V : Type} [Variable V]

/-- The coefficient with which a subset of a term appears in its expansion. -/
def expansionFactor (d : Domain) (degree picked : Nat) : Number :=
  .exact (d.substitution.1 ^ (degree - picked) * d.substitution.2 ^ picked)

/-- Adds the expansion of a term to a table. -/
def expandTerm (d : Domain) (terms : Table (Term V) Coefficient) (t : Term V) (c : Coefficient) :
    Table (Term V) Coefficient :=
  t.subsets.foldl (fun terms s =>
    addCoefficient terms s (c * .num (expansionFactor d t.length s.length))) terms

/-- The same function over the domain `e`. -/
def toDomain (e : Domain) (p : Polynomial d V) : Polynomial e V :=
  let terms :=
    if e = d then p.terms
    else p.terms.foldl (fun terms t => expandTerm d terms t.1 t.2) []
  ofParts terms p.index p.ancillas

end PseudoBoolean.Polynomial
