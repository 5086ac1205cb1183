import PseudoBoolean.Document.Basic
import PseudoBoolean.Json.Reader

/-! # Reading documents

A record is an object with named fields, or an array with the fields in their order. Fields that are not
known are passed over, and a known field may not be given twice. Which parts of the document are wrong is
not reported.
-/

namespace PseudoBoolean

namespace WrittenJson

/-- The greatest number of arrays and objects that may be open at one place. -/
def depthLimit : Nat := 127

/-- The fields of a record, in the order of their names, and none beyond them. An absent field is `none`,
and so are those after the end of an array. All names in an object must have a value. -/
def fields? (names : List String) : WrittenJson → Option (List (Option WrittenJson))
  | array items =>
    if items.length ≤ names.length then
      some (items.map some ++ List.replicate (names.length - items.length) none)
    else none
  | object members =>
    if members.any fun m => m.1.isNone then none
    else names.mapM fun name =>
      match members.filter fun m => m.1 == some name with
      | [] => some none
      | [m] => some (some m.2)
      | _ => none
  | _ => none

/-- A value that may be absent or null. -/
def optional? {α : Type} (read : WrittenJson → Option α) : Option WrittenJson → Option (Option α)
  | none => some none
  | some null => some none
  | some j => (read j).map some

/-- A name, alone or as the only member of an object without a value. -/
def name? : WrittenJson → Option String
  | string s => some s
  | object [(s, null)] => s
  | _ => none

/-- A truth value. -/
def bool? : WrittenJson → Option Bool
  | bool b => some b
  | _ => none

/-- A number as a double. -/
def float? : WrittenJson → Option Float
  | integer n => some (Binary64.ofRat n)
  | float x => some x
  | _ => none

/-- Two numbers. -/
def floatPair? : WrittenJson → Option (Float × Float)
  | array [a, b] => do return (← float? a, ← float? b)
  | _ => none

/-- The items of an array. -/
def items? : WrittenJson → Option (List WrittenJson)
  | array items => some items
  | _ => none

end WrittenJson

/-- The domain of a name. -/
def Domain.ofText? (s : String) : Option Domain :=
  [binary, spin].find? fun d => d.text == s

/-- The relation of a word. -/
def Relation.ofWord? (s : String) : Option Relation :=
  all.find? fun r => r.word == s

/-- The coefficient that a JSON value stands for. A whole number outside the 64-bit range with a sign is
taken as a double. -/
def WrittenCoefficient.ofJson? : WrittenJson → Option WrittenCoefficient
  | .integer n =>
    if Int64.minValue.toInt ≤ n ∧ n ≤ Int64.maxValue.toInt then some (int n)
    else some (float (Binary64.ofRat n))
  | .float x => some (float x)
  | .string s => some (param s)
  | _ => none

/-- The term of a pair of a key and a coefficient, of which the pair is `level` levels deep in the
document. -/
def WrittenTerm.ofJson? (level : Nat) : WrittenJson → Option WrittenTerm
  | .array [key, c] =>
    if level + key.depth ≤ WrittenJson.depthLimit then do
      return ⟨← key.value?, ← WrittenCoefficient.ofJson? c⟩
    else none
  | _ => none

/-- The terms of a polynomial, whose pairs are `level` levels deep in the document. -/
def WrittenTerm.listOfJson? (level : Nat) (j : WrittenJson) : Option (List WrittenTerm) := do
  (← j.items?).mapM (WrittenTerm.ofJson? level)

/-- The constraint that a JSON value stands for. -/
def ConstraintDocument.ofJson? (j : WrittenJson) : Option ConstraintDocument := do
  match ← j.fields? ["relation", "polynomial", "lam", "log_trick", "bounds"] with
  | [some relation, some polynomial, weight, logarithmic, bounds] =>
    return {
      relation := ← Relation.ofWord? (← relation.name?)
      polynomial := ← WrittenTerm.listOfJson? 5 polynomial
      weight := ← WrittenJson.optional? WrittenCoefficient.ofJson? weight
      logarithmic := ← WrittenJson.optional? WrittenJson.bool? logarithmic
      bounds := ← WrittenJson.optional? WrittenJson.floatPair? bounds }
  | _ => none

/-- The document that a JSON value stands for. -/
def ModelDocument.ofJson? (j : WrittenJson) : Option ModelDocument := do
  match ← j.fields? ["domain", "objective", "constraints"] with
  | [some domain, some objective, constraints] =>
    let constraints ← match constraints with
      | none => some []
      | some j => (← j.items?).mapM ConstraintDocument.ofJson?
    return {
      domain := ← Domain.ofText? (← domain.name?)
      objective := ← WrittenTerm.listOfJson? 3 objective
      constraints }
  | _ => none

/-- The document of a text. -/
def ModelDocument.ofText (text : String) : Except Error ModelDocument :=
  match (Json.parse? text).bind ofJson? with
  | some document => .ok document
  | none => .error (.malformed .document)

end PseudoBoolean
