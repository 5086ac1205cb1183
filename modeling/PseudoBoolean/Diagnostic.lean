import PseudoBoolean.Relation

/-! # Constraints decided by their range

The range of a polynomial may decide a constraint: it holds for every assignment, or for none. This is
reported and never an error. A range that would decide it both ways, because its bounds are out of order,
counts as never satisfiable.
-/

namespace PseudoBoolean

/-- What the range of a polynomial says about a constraint. -/
inductive Verdict where
  | alwaysSatisfied
  | neverSatisfied
  deriving DecidableEq, Repr

/-- The words for a verdict. -/
def Verdict.text : Verdict → String
  | alwaysSatisfied => "always satisfied"
  | neverSatisfied => "never satisfiable"

namespace Relation

/-- Whether no value from `lower` to `upper` stands in the relation to zero. -/
def failsOn (r : Relation) (lower upper : Number) : Bool :=
  match r with
  | eq => Number.lt 0 lower || Number.lt upper 0
  | le => Number.lt 0 lower
  | lt => Number.le 0 lower
  | ge => Number.lt upper 0
  | gt => Number.le upper 0

/-- Whether every value from `lower` to `upper` stands in the relation to zero. -/
def holdsOn (r : Relation) (lower upper : Number) : Bool :=
  match r with
  | eq => lower.isZero && upper.isZero
  | le => Number.le upper 0
  | lt => Number.lt upper 0
  | ge => Number.le 0 lower
  | gt => Number.lt 0 lower

/-- The verdict on a constraint whose polynomial has values from `lower` to `upper`, if they decide it. -/
def classify (r : Relation) (lower upper : Number) : Option Verdict :=
  if r.failsOn lower upper then some .neverSatisfied
  else if r.holdsOn lower upper then some .alwaysSatisfied
  else none

end Relation

/-- A constraint that its range decides. -/
structure Diagnostic where
  /-- The position of the constraint in its model. -/
  constraint : Nat
  relation : Relation
  verdict : Verdict
  lower : Number
  upper : Number
  deriving DecidableEq

namespace Diagnostic

/-- The report on a constraint, if its range decides it. -/
def ofRange? (constraint : Nat) (relation : Relation) (lower upper : Number) : Option Diagnostic :=
  (relation.classify lower upper).map fun verdict =>
    { constraint, relation, verdict, lower, upper }

/-- The report in words. -/
def text (d : Diagnostic) : String :=
  "constraint " ++ toString d.constraint ++ " (P " ++ d.relation.symbol ++ " 0) is " ++
    d.verdict.text ++ ": P ranges over [" ++ d.lower.text ++ ", " ++ d.upper.text ++ "]"

end Diagnostic

end PseudoBoolean
