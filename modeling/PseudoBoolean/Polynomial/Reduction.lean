import PseudoBoolean.Quadratic

/-! # Degree reduction

While some term has more variables than the target allows, a pair `x, y` that occurs most often in such
terms gets a variable `z` of its own. In every term that is too large and contains both, `z` takes their
place, and `w * (x * y - 2 * x * z - 2 * y * z + 3 * z)` is added. This penalty is zero if `z = x * y` and
at least `w` otherwise. Replacing the pair changes the value by at most the sum of the magnitudes of the
coefficients involved, so a weight of one more than that keeps the minimizers.

Each round takes one variable out of a term that is too large. The number of variables beyond the
target, summed over all terms, therefore bounds the number of rounds.
-/

namespace PseudoBoolean

/-- The weight of the penalty of an introduced variable. -/
inductive ReductionWeight where
  /-- One more than the magnitudes of the coefficients that are moved, which must be numbers. -/
  | auto
  /-- The same weight for every variable. -/
  | fixed (w : Coefficient)
  deriving DecidableEq

namespace Polynomial

/-! ## The pair to replace -/

/-- The pairs of variables of a term, in order, each as a term of its own. -/
def pairs : Term Nat → List (Term Nat)
  | [] => []
  | x :: t => t.map (fun y => [x, y]) ++ pairs t

/-- How often each pair occurs in the terms with more variables than the target. -/
def pairCounts (p : Polynomial .binary Nat) (target : Nat) : Table (Term Nat) Nat :=
  (p.terms.filter fun t => target < t.1.length).foldl (fun counts t =>
    (pairs t.1).foldl (fun counts pair =>
      counts.alter pair fun n => some (n.getD 0 + 1)) counts) []

/-- The pair that occurs most often in the terms with more variables than the target; of several, the
smallest. -/
def mostFrequentPair? (p : Polynomial .binary Nat) (target : Nat) : Option (Nat × Nat) :=
  let best := (p.pairCounts target).foldl (fun (best : Option (Term Nat × Nat)) entry =>
    match best with
    | none => some entry
    | some b => if b.2 < entry.2 then some entry else some b) none
  match best with
  | some ([x, y], _) => some (x, y)
  | _ => none

/-! ## Rounds -/

/-- The terms with more variables than the target that contain both variables of a pair. -/
def termsWithPair (p : Polynomial .binary Nat) (target x y : Nat) : Table (Term Nat) Coefficient :=
  p.terms.filter fun t => target < t.1.length && t.1.contains x && t.1.contains y

/-- The weight for a round that changes the given terms. -/
def ReductionWeight.forTerms (weight : ReductionWeight) (terms : Table (Term Nat) Coefficient) :
    Except Error Coefficient :=
  match weight with
  | .fixed w => .ok w
  | .auto => do
    let sum ← terms.foldlM (fun (sum : Number) t => do
      return sum + (← Error.ofCoefficient t.2.abs)) 1
    return .num sum

/-- Puts `z` in the place of the pair `x, y` in a term. -/
def replacePair (x y z : Nat) (t : Term Nat) : Term Nat :=
  Term.normalize .binary ((t.filter fun v => v != x && v != y) ++ [z])

/-- Adds the penalty for `z = x * y` and records the origin of `z`. -/
def addProductPenalty (p : Polynomial .binary Nat) (x y z : Nat) (w : Coefficient) :
    Polynomial .binary Nat :=
  let p := p.addTerm [x, y] w
  let p := p.addTerm [x, z] (w * .num (.ofInt (-2)))
  let p := p.addTerm [y, z] (w * .num (.ofInt (-2)))
  let p := p.addTerm [z] (w * .num 3)
  { p with ancillas := p.ancillas.insert z (.product x y) }

/-- One round: the variable `z` stands for the product `x * y` from now on. -/
def replaceProduct (p : Polynomial .binary Nat) (target x y z : Nat) (weight : ReductionWeight) :
    Except Error (Polynomial .binary Nat) := do
  let changed := p.termsWithPair target x y
  let w ← ReductionWeight.forTerms weight changed
  let p := changed.foldl (fun p t => (p.assign t.1 0).accumulate (replacePair x y z t.1) t.2) p
  return p.addProductPenalty x y z w

/-- The number of variables beyond the target, summed over all terms. -/
def excess (p : Polynomial .binary Nat) (target : Nat) : Nat :=
  p.terms.foldr (fun t n => t.1.length - target + n) 0

/-- Rounds of reduction, at most as many as the first argument says; `next` is the next free number. -/
def reduceRounds (target : Nat) (weight : ReductionWeight) :
    Nat → Nat → Polynomial .binary Nat → Except Error (Polynomial .binary Nat)
  | 0, _, p => .ok p
  | rounds + 1, next, p =>
    if p.degree ≤ target then .ok p
    else match p.mostFrequentPair? target with
      | none => .ok p
      | some (x, y) => do
        reduceRounds target weight rounds (next + 1) (← p.replaceProduct target x y next weight)

/-- The first number for an introduced variable: above the variables that occur, and not below the
number of variables. -/
def firstFree (p : Polynomial .binary Nat) : Nat :=
  max (p.vars.foldl (fun n v => max n (v + 1)) 0) p.index.size

/-- Refuses a bound on the degree below two. -/
def checkTarget (target : Nat) : Except Error Unit :=
  if target < quadraticDegree then .error (.malformed (.targetTooSmall target)) else .ok ()

/-- A polynomial with at most `target` variables in a term and the same minimizers, ancillas apart;
without a target, the polynomial itself. -/
def reduce (p : Polynomial .binary Nat) (target : Option Nat) (weight : ReductionWeight) :
    Except Error (Polynomial .binary Nat) :=
  match target with
  | none => .ok p
  | some target => do
    checkTarget target
    reduceRounds target weight (p.excess target) p.firstFree p

end Polynomial

end PseudoBoolean
