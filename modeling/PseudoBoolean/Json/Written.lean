import PseudoBoolean.Table

/-! # JSON values and JSON as it is written

A JSON document is a tree. Numbers are kept apart by how they are written: a whole number of 64 bits,
signed or unsigned, stays a whole number, and any other is a double.

A text can follow the rules of JSON and still have parts without a value: a number beyond the range of
doubles, and a text with half a surrogate pair. They do no harm where nobody looks. Reading a text
therefore gives a tree in which such parts are marked, and `value?` is the JSON value of a part that has
one throughout.
-/

namespace PseudoBoolean

/-- A JSON value. -/
inductive Json where
  | null
  | bool (b : Bool)
  | integer (n : Int)
  | float (x : Float)
  | string (s : String)
  | array (items : List Json)
  | object (members : List (String × Json))

/-- A JSON value as it is written. -/
inductive WrittenJson where
  | null
  | bool (b : Bool)
  | integer (n : Int)
  | float (x : Float)
  | string (s : String)
  /-- A number or a text that has no value. -/
  | unreadable
  | array (items : List WrittenJson)
  /-- An object; a name that has no value is `none`. -/
  | object (members : List (Option String × WrittenJson))

namespace WrittenJson

/-- A quoted text. -/
def ofText? : Option String → WrittenJson
  | some s => string s
  | none => unreadable

/-! ## Nesting -/

mutual

/-- How many arrays and objects are open at the innermost place of a value. -/
def depth : WrittenJson → Nat
  | array items => depthItems items + 1
  | object members => depthMembers members + 1
  | _ => 0

/-- The greatest depth in a list of values. -/
def depthItems : List WrittenJson → Nat
  | [] => 0
  | j :: items => max (depth j) (depthItems items)

/-- The greatest depth in a list of members. -/
def depthMembers : List (Option String × WrittenJson) → Nat
  | [] => 0
  | (_, j) :: members => max (depth j) (depthMembers members)

end

/-! ## Values -/

mutual

/-- The value, if all parts have one. The members of every object are put in the order of their names,
and the last of those with one name is kept. -/
def value? : WrittenJson → Option Json
  | null => some .null
  | bool b => some (.bool b)
  | integer n => some (.integer n)
  | float x => some (.float x)
  | string s => some (.string s)
  | unreadable => none
  | array items => (valueItems? items).map .array
  | object members => (valueMembers? members).map fun ms => .object (Table.ofList ms)

/-- The values of a list. -/
def valueItems? : List WrittenJson → Option (List Json)
  | [] => some []
  | j :: items =>
    match value? j, valueItems? items with
    | some j, some items => some (j :: items)
    | _, _ => none

/-- The values of a list of members, which stay in their order. -/
def valueMembers? : List (Option String × WrittenJson) → Option (List (String × Json))
  | [] => some []
  | (name, j) :: members =>
    match name, value? j, valueMembers? members with
    | some name, some j, some members => some ((name, j) :: members)
    | _, _, _ => none

end

end WrittenJson

end PseudoBoolean
