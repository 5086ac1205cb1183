import PseudoBoolean.Number

/-! # Relations to zero

A constraint demands that the value of a polynomial stands in one of five relations to zero.
-/

namespace PseudoBoolean

/-- How a value is to compare with zero. -/
inductive Relation where
  | eq
  | lt
  | le
  | gt
  | ge
  deriving DecidableEq, Repr

namespace Relation

/-- All relations. -/
def all : List Relation := [eq, lt, le, gt, ge]

/-- The sign of a relation in messages. -/
def symbol : Relation → String
  | eq => "=="
  | lt => "<"
  | le => "<="
  | gt => ">"
  | ge => ">="

/-- The word for a relation in documents. -/
def word : Relation → String
  | eq => "eq"
  | lt => "lt"
  | le => "le"
  | gt => "gt"
  | ge => "ge"

/-- By how much a floating value may miss a relation. -/
def tolerance : Float := 1e-9

/-- Whether a value stands in the relation to zero. The nearest double is compared, with a tolerance
unless the value is exact. -/
def holds (r : Relation) (value : Number) : Bool :=
  let margin := if value.isExact then 0.0 else tolerance
  let x := value.toFloat
  match r with
  | eq => x.abs ≤ margin
  | lt => x < -margin
  | le => x ≤ margin
  | gt => x > margin
  | ge => x ≥ -margin

end Relation

end PseudoBoolean
