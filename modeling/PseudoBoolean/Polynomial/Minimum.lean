import PseudoBoolean.Mask
import PseudoBoolean.Polynomial.Evaluation

/-! # Exhaustive minimization

All assignments to a list of variables are tried in counting order: the code `n` gives the variable at
position `i` the value at position `bit i of n` of its domain. For the search the terms are compiled to
the masks of their positions, so that the value at a code is read off its word.
-/

namespace PseudoBoolean

/-- A polynomial prepared for evaluation at codes: its constant, and each other term as the mask of the
positions of its variables. -/
structure Compiled where
  offset : Number
  terms : List (Mask × Number)

namespace Compiled

variable {d : Domain} {V : Type} [Variable V]

/-- The positions of the variables of a term in the list of enumerated variables. -/
def positions (vars : List V) (t : Term V) : Except Error (List Nat) :=
  t.mapM fun v =>
    match vars.idxOf? v with
    | some i => .ok i
    | none => .error (.malformed (.notEnumerated (Variable.text v)))

/-- Prepares a polynomial, whose coefficients must be numbers, over enumerated variables. -/
def ofPolynomial (p : Polynomial d V) (vars : List V) : Except Error Compiled := do
  let terms ← p.numericTerms
  return {
    offset := (terms.filter fun t => t.1.isEmpty).foldl (fun sum t => sum + t.2) 0
    terms := ← (terms.filter fun t => !t.1.isEmpty).mapM fun t => do
      return (.ofPositions (← positions vars t.1), t.2) }

/-- Adds the contribution of a term at a code. A binary term counts if all its bits are set, a spin term
counts negatively if an odd number of them is. -/
def addTerm (d : Domain) (code : Mask) (sum : Number) (mask : Mask) (c : Number) : Number :=
  match d with
  | .binary => if code.includes mask then sum + c else sum
  | .spin => if Mask.size (code &&& mask) % 2 = 1 then sum - c else sum + c

/-- The value at a code. -/
def eval (d : Domain) (compiled : Compiled) (code : Mask) : Number :=
  compiled.terms.foldl (fun sum t => addTerm d code sum t.1 t.2) compiled.offset

end Compiled

/-- The assignment that a code stands for. -/
def decode {V : Type} [Variable V] (d : Domain) (vars : List V) (code : Nat) : Assignment V :=
  Table.ofList (vars.zipIdx.map fun (v, i) => (v, d.ofBit (code.testBit i)))

/-- What a search has found so far: the least value and its codes, the last one first. -/
structure Found where
  best : Option Number
  codes : List Nat

namespace Found

/-- Takes a further code into account. One with a larger value is passed over, and so is one with the
same value unless all are wanted; any other counts if it is admitted. -/
def consider (all : Bool) (admitted : Nat → Bool) (value : Nat → Number) (found : Found)
    (code : Nat) : Found :=
  let v := value code
  match found.best with
  | none => if admitted code then ⟨some v, [code]⟩ else found
  | some b =>
    match v.compare? b with
    | some .gt => found
    | some .eq => if all && admitted code then ⟨some b, code :: found.codes⟩ else found
    | _ => if admitted code then ⟨some v, [code]⟩ else found

end Found

namespace Polynomial

variable {d : Domain} {V : Type} [Variable V]

/-- The largest number of variables of a search. -/
def enumerationLimit : Nat := 63

/-- The least value over the admitted assignments to a list of variables, with the assignments that have
it, in counting order: all of them, or the first. Without an admitted assignment there is no value. -/
def minimizeWhere (p : Polynomial d V) (vars : List V) (all : Bool)
    (admitted : Assignment V → Bool) : Except Error (Option Number × List (Assignment V)) := do
  if enumerationLimit < vars.length then
    .error (.malformed (.tooManyVariables enumerationLimit vars.length))
  let compiled ← Compiled.ofPolynomial p vars
  let found := (List.range (Mask.single vars.length).toNat).foldl
    (Found.consider all (fun code => admitted (decode d vars code))
      fun code => compiled.eval d (.ofNat code)) ⟨none, []⟩
  return (found.best, found.codes.reverse.map (decode d vars))

/-- The least value over all assignments to a list of variables, with the assignments that have it. -/
def minimize (p : Polynomial d V) (vars : List V) (all : Bool) :
    Except Error (Number × List (Assignment V)) := do
  let (value, solutions) ← p.minimizeWhere vars all fun _ => true
  return (value.getD 0, solutions)

/-- An assignment without the variables that are recorded as introduced. -/
def withoutAncillas (p : Polynomial d V) (a : Assignment V) : Assignment V :=
  a.filter fun e => !p.ancillas.contains e.1

/-- All assignments to the numbered variables with the least value, ancillas left out. -/
def solveAll (p : Polynomial d V) : Except Error (List (Assignment V)) := do
  let (_, solutions) ← p.minimize p.index.labels true
  return solutions.map p.withoutAncillas

/-- The first assignment to the numbered variables with the least value, ancillas left out. -/
def solve (p : Polynomial d V) : Except Error (Assignment V) := do
  let (_, solutions) ← p.minimize p.index.labels false
  return p.withoutAncillas (solutions.getLast?.getD [])

/-- The least value with the first assignment to the occurring variables that has it. Ancillas are kept,
so that the polynomial from which this one was made can take the assignment back. -/
def minimum (p : Polynomial d V) : Except Error (Number × Assignment V) := do
  let (value, solutions) ← p.minimize p.vars false
  return (value, solutions.getLast?.getD [])

/-- Brings a solution of a canonical form back to the variables and the domain of the polynomial. The
solution is by number, in the domain `e`; numbers that no variable has belong to ancillas of the
reduction and are left out. -/
def convertSolution (p : Polynomial d V) (e : Domain) (raw : Assignment Nat) :
    Except Error (Assignment V) :=
  raw.foldlM (fun out (i, x) =>
    match p.index.label? i with
    | none => .ok out
    | some v =>
      match e.convert? d x with
      | some y => .ok (Table.insert v y out)
      | none => .error (.malformed (.indexValueOutside x i e))) []

end Polynomial

end PseudoBoolean
