import PseudoBoolean.Number

/-! # The two domains of values

A binary variable takes the values 0 and 1, a spin variable the values 1 and -1. They are related by
`x = (1 - s) / 2`, equivalently `s = 1 - 2 * x`: binary 0 is spin 1, and binary 1 is spin -1. The two
values of a domain are listed in this order, so that the same position means the same choice.
-/

namespace PseudoBoolean

/-- The values that variables range over. -/
inductive Domain where
  | binary
  | spin
  deriving DecidableEq, Repr

namespace Domain

def text : Domain → String
  | binary => "binary"
  | spin => "spin"

/-- The value at a position: the first for `false`, the second for `true`. -/
def ofBit : Domain → Bool → Int
  | binary, false => 0
  | binary, true => 1
  | spin, false => 1
  | spin, true => -1

/-- The two values in their order. -/
def values (d : Domain) : List Int :=
  [d.ofBit false, d.ofBit true]

/-- Whether a value belongs to the domain. -/
def contains (d : Domain) (x : Int) : Bool :=
  d.values.contains x

/-- The position of a value. -/
def toBit? (d : Domain) (x : Int) : Option Bool :=
  if x = d.ofBit false then some false
  else if x = d.ofBit true then some true
  else none

/-- The value of `target` at the position that `x` has in `d`. -/
def convert? (d target : Domain) (x : Int) : Option Int :=
  (d.toBit? x).map target.ofBit

/-- The pair `(a, b)` for which a variable of the domain is `a + b * w`, with `w` the corresponding
variable of the other domain. -/
def substitution : Domain → Rat × Rat
  | binary => (1 / 2, -1 / 2)
  | spin => (1, -2)

/-- The least and the greatest value that a coefficient contributes through a term with variables. -/
def termRange (d : Domain) (c : Number) : Number × Number :=
  match d with
  | binary => if c.isNegative then (c, 0) else (0, c)
  | spin => (-c.abs, c.abs)

end Domain

end PseudoBoolean
