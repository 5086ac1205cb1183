import PseudoBoolean.Ancilla
import PseudoBoolean.Coefficient
import PseudoBoolean.Term
import PseudoBoolean.VariableIndex

/-! # Polynomials over binary or spin variables

A polynomial is a table from terms to coefficients, together with the numbering of its variables and the
records of those that were introduced. The domain is part of the type, so that only polynomials over the
same domain are added and multiplied, and every product of terms is brought to the normal form of that
domain.

No coefficient in the table is zero. All changes go through `accumulate` and `assign`, which drop a term
whose coefficient becomes zero, and the numbering keeps every variable that has been mentioned by a term
with a coefficient other than zero, also after all its terms have cancelled.
-/

namespace PseudoBoolean

/-- A polynomial with variables in `V`, over the domain `d`. -/
structure Polynomial (d : Domain) (V : Type) where
  terms : Table (Term V) Coefficient
  index : VariableIndex V
  ancillas : AncillaTable V

namespace Polynomial

variable {d : Domain} {V : Type}

/-- The polynomial without terms and variables. -/
def empty : Polynomial d V := ⟨[], .empty, []⟩

/-- The same variables and records without any term. -/
def cleared (p : Polynomial d V) : Polynomial d V :=
  { p with terms := [] }

/-- Whether the exponents in all coefficients can be kept. -/
def fits (p : Polynomial d V) : Bool :=
  p.terms.all (·.2.fits)

/-- The number of variables in the largest term; zero if there are no terms. -/
def degree (p : Polynomial d V) : Nat :=
  p.terms.foldl (fun n t => max n t.1.length) 0

variable [Variable V]

/-! ## Building -/

/-- The table with `c` added to the coefficient of a term, which is dropped if the sum is zero. -/
def addCoefficient (terms : Table (Term V) Coefficient) (t : Term V) (c : Coefficient) :
    Table (Term V) Coefficient :=
  terms.alter t fun old =>
    let sum := match old with
      | none => c
      | some o => o + c
    if sum.isZero then none else some sum

/-- Adds `c` to the coefficient of a term in normal form. A zero leaves the polynomial as it is. -/
def accumulate (p : Polynomial d V) (t : Term V) (c : Coefficient) : Polynomial d V :=
  if c.isZero then p
  else { p with index := p.index.insertAll t, terms := addCoefficient p.terms t c }

/-- Sets the coefficient of a term in normal form. A zero removes the term. -/
def assign (p : Polynomial d V) (t : Term V) (c : Coefficient) : Polynomial d V :=
  if c.isZero then { p with terms := p.terms.erase t }
  else { p with index := p.index.insertAll t, terms := p.terms.insert t c }

/-- Adds `c` times a product of variables. -/
def addTerm (p : Polynomial d V) (vars : List V) (c : Coefficient) : Polynomial d V :=
  p.accumulate (Term.normalize d vars) c

/-- Sets the coefficient of a product of variables. -/
def setTerm (p : Polynomial d V) (vars : List V) (c : Coefficient) : Polynomial d V :=
  p.assign (Term.normalize d vars) c

/-- Adds a constant. -/
def addConstant (p : Polynomial d V) (c : Coefficient) : Polynomial d V :=
  p.accumulate [] c

/-- The sum of a list of products with coefficients. -/
def ofTerms (entries : List (List V × Coefficient)) : Polynomial d V :=
  entries.foldl (fun p e => p.addTerm e.1 e.2) empty

/-- A single variable. -/
def var (v : V) : Polynomial d V :=
  empty.addTerm [v] 1

/-- A constant. -/
def const (c : Coefficient) : Polynomial d V :=
  empty.addConstant c

/-- A table of terms in normal form, with a given numbering and records. -/
def ofParts (terms : Table (Term V) Coefficient) (index : VariableIndex V)
    (ancillas : AncillaTable V) : Polynomial d V :=
  terms.foldl (fun p t => p.accumulate t.1 t.2) ⟨[], index, ancillas⟩

/-- Sets the coefficients of a list of products, one after the other. -/
def setTerms (p : Polynomial d V) (entries : List (List V × Coefficient)) : Polynomial d V :=
  entries.foldl (fun p e => p.setTerm e.1 e.2) p

/-- Takes over the variables and records of another polynomial. -/
def adopt (p q : Polynomial d V) : Polynomial d V :=
  { p with index := p.index.absorb q.index, ancillas := p.ancillas.merge q.ancillas }

/-- Sets every coefficient that `q` has. -/
def update (p q : Polynomial d V) : Polynomial d V :=
  q.terms.foldl (fun p t => p.assign t.1 t.2) (p.adopt q)

/-! ## Reading -/

/-- The coefficient of a term in normal form; zero if it is absent. -/
def termCoefficient (p : Polynomial d V) (t : Term V) : Coefficient :=
  (p.terms.get? t).getD 0

/-- The coefficient of a product of variables. -/
def coefficient (p : Polynomial d V) (vars : List V) : Coefficient :=
  p.termCoefficient (Term.normalize d vars)

/-- The constant. -/
def offset (p : Polynomial d V) : Coefficient :=
  p.termCoefficient []

/-- The variables that occur in a term, in increasing order. -/
def vars (p : Polynomial d V) : List V :=
  sortedSet (p.terms.flatMap (·.1))

omit [Variable V] in
/-- The parameters that occur in a coefficient, in increasing order. -/
def params (p : Polynomial d V) : List String :=
  sortedSet (p.terms.flatMap (·.2.params))

/-- Replaces the numbering by the bijection of a list of pairs, which must number the same variables. The
polynomial that is left behind is given in any case. -/
def setMapping (p : Polynomial d V) (pairs : List (V × Nat)) : Polynomial d V × Except Error Unit :=
  match VariableIndex.ofBijection pairs with
  | .error e => (p, .error e)
  | .ok index =>
    if sortedSet p.index.labels == sortedSet index.labels then ({ p with index := index }, .ok ())
    else (p, .error (.malformed .mappingIncomplete))

/-- Equality of polynomials is that of their terms and coefficients; numbering and records do not count. -/
def valueEq (p q : Polynomial d V) : Bool :=
  p.terms.length == q.terms.length &&
    (p.terms.zip q.terms).all fun (s, t) => s.1 == t.1 && s.2.valueEq t.2

/-- The text of a polynomial: its terms with their coefficients, in braces. -/
def text (p : Polynomial d V) : String :=
  "\x7b" ++ ", ".intercalate (p.terms.map fun t => Term.text t.1 ++ ": " ++ t.2.text) ++ "\x7d"

end Polynomial

end PseudoBoolean
