import PseudoBoolean.Number
import PseudoBoolean.Term

/-! # Ancillas and where they come from

Degree reduction and slack encoding introduce variables that the user did not name. Each is recorded
with its origin, and the records tell which variables to leave out of a reported solution.
-/

namespace PseudoBoolean

/-- Why a variable was introduced. -/
inductive Origin (V : Type) where
  /-- It stands for the product of two variables. -/
  | product (a b : V)
  /-- It is a bit of the slack of a constraint, which it enters with a weight. -/
  | slack (constraint : Nat) (weight : Number)
  deriving DecidableEq

namespace Origin

variable {V W : Type}

/-- The text of an origin. -/
def text [Variable V] : Origin V → String
  | product a b => Variable.text a ++ "*" ++ Variable.text b
  | slack constraint weight =>
    "slack of constraint " ++ toString constraint ++ " (weight " ++ weight.text ++ ")"

/-- The same origin with other names of the variables, if both factors of a product have one. -/
def relabel? (f : V → Option W) : Origin V → Option (Origin W)
  | product a b =>
    match f a, f b with
    | some a, some b => some (product a b)
    | _, _ => none
  | slack constraint weight => some (slack constraint weight)

end Origin

/-- The recorded ancillas with their origins. -/
abbrev AncillaTable (V : Type) : Type := Table V (Origin V)

namespace AncillaTable

variable {V W : Type} [Variable V] [Variable W]

/-- The records of both tables; a variable that both record keeps its origin in the first. -/
def merge (a b : AncillaTable V) : AncillaTable V :=
  b.foldl (fun t (v, origin) => Table.alter v (fun old => some (old.getD origin)) t) a

omit [Variable V] in
/-- The same records under other names; a record that involves a variable without one is dropped. -/
def relabel (f : V → Option W) (a : AncillaTable V) : AncillaTable W :=
  a.foldl (fun t (v, origin) =>
    match f v, origin.relabel? f with
    | some w, some origin => Table.insert w origin t
    | _, _ => t) []

end AncillaTable

end PseudoBoolean
