import PseudoBoolean.Error
import PseudoBoolean.Term

/-! # Numbering of variables

A variable gets the next free number when it is first mentioned, and keeps it. The numbering is the list
of the variables in the order of their numbers. It changes otherwise only when it is replaced as a whole
by a bijection onto `0, …, n - 1`.

The list is the whole numbering. A map from the variables to their numbers, kept beside it for a fast
look-up, would be written at one place only: there a variable that it lacks is put at the end of the list and
mapped to its position. So the number in the map is always the position in the list, which is where
`indexOf?` finds it.
-/

namespace PseudoBoolean

instance : Variable Nat where
  text n := toString n

/-- The variables in the order of their numbers. No variable is there twice as long as they are put there by
`insert` and `ofBijection`, so the position of a variable says as much as a map to its number. -/
structure VariableIndex (V : Type) where
  labels : List V
  deriving DecidableEq

namespace VariableIndex

variable {V : Type}

/-- The numbering of no variable. -/
def empty : VariableIndex V := ⟨[]⟩

/-- How many variables have a number. -/
def size (index : VariableIndex V) : Nat :=
  index.labels.length

/-- The largest number that a variable has. -/
def maxIndex? (index : VariableIndex V) : Option Nat :=
  if index.labels.isEmpty then none else some (index.size - 1)

/-- The variable with a given number. -/
def label? (index : VariableIndex V) (i : Nat) : Option V :=
  index.labels[i]?

/-- The numbers with their variables. -/
def reverseMapping (index : VariableIndex V) : Table Nat V :=
  index.labels.zipIdx.map fun e => (e.2, e.1)

variable [Variable V]

/-- The number of a variable. -/
def indexOf? (index : VariableIndex V) (v : V) : Option Nat :=
  index.labels.idxOf? v

/-- Gives a variable the next free number unless it has one. -/
def insert (index : VariableIndex V) (v : V) : VariableIndex V :=
  if index.labels.contains v then index else ⟨index.labels ++ [v]⟩

/-- Gives numbers to a list of variables, one after the other. -/
def insertAll (index : VariableIndex V) (vars : List V) : VariableIndex V :=
  vars.foldl insert index

/-- Gives numbers to the variables of another numbering, in its order. -/
def absorb (index other : VariableIndex V) : VariableIndex V :=
  index.insertAll other.labels

/-- The variables with their numbers, in the order of the variables. -/
def mapping (index : VariableIndex V) : Table V Nat :=
  Table.ofList index.labels.zipIdx

/-- The slots `0, …, n - 1` filled by a list of pairs, refusing a number that is out of range or taken. -/
def fillSlots (pairs : List (V × Nat)) : Except Error (Table Nat V) :=
  pairs.foldlM (fun slots (v, i) =>
    if pairs.length ≤ i then .error (.malformed (.indexOutOfRange i pairs.length))
    else if slots.contains i then .error (.malformed (.indexRepeated i))
    else .ok (slots.insert i v)) []

/-- A numbering given by its pairs, which must be a bijection onto `0, …, n - 1`. -/
def ofBijection (pairs : List (V × Nat)) : Except Error (VariableIndex V) := do
  let slots ← fillSlots pairs
  slots.foldlM (fun index (_, v) =>
    if index.labels.contains v then .error (.malformed (.labelRepeated (Variable.text v)))
    else .ok ⟨index.labels ++ [v]⟩) empty

end VariableIndex

/-- The numbering in which every number below `n` is its own variable. -/
def VariableIndex.identity (n : Nat) : VariableIndex Nat :=
  ⟨List.range n⟩

end PseudoBoolean
