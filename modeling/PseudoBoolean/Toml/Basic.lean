/-! # TOML values

A TOML document as a tree. A table remembers how it came to be, because that decides which later lines
may still extend it.
-/

namespace PseudoBoolean

/-- How a table was introduced. -/
inductive TableKind where
  /-- By a header of its own. -/
  | defined
  /-- Written in line as a value. -/
  | inline
  /-- As part of the name of another table in a header. -/
  | implied
  /-- As part of a dotted key. -/
  | dotted
  deriving DecidableEq, Repr

/-- A TOML value. Dates and times are recognized, and not kept. -/
inductive Toml where
  | string (s : String)
  | integer (n : Int)
  | float (x : Float)
  | bool (b : Bool)
  | time
  | array (items : List Toml)
  | table (kind : TableKind) (members : List (String × Toml))
  /-- Tables that were introduced by headers in double brackets, the last first. -/
  | tables (elements : List (List (String × Toml)))

namespace Toml

/-! ## Extending tables -/

/-- The members with another value for a name that is there. -/
def replaceMember (name : String) (v : Toml) (members : List (String × Toml)) :
    List (String × Toml) :=
  members.map fun m => if m.1 == name then (name, v) else m

/-- Adds a value under a dotted key, given as the names before the last and the last. The tables on the
way are made if they are missing. Nothing may be added to a table that has been defined elsewhere. -/
def putDotted : List String → String → Toml → List (String × Toml) → Option (List (String × Toml))
  | [], name, v, members =>
    if members.any (·.1 == name) then none else some (members ++ [(name, v)])
  | k :: path, name, v, members =>
    match members.lookup k with
    | none => (putDotted path name v []).map fun inner => members ++ [(k, .table .dotted inner)]
    | some (.table kind inner) =>
      if kind = .dotted ∨ (kind = .implied ∧ path ≠ []) then
        (putDotted path name v inner).map fun inner => replaceMember k (.table kind inner) members
      else none
    | some (.tables (last :: earlier)) =>
      if path = [] then none
      else (putDotted path name v last).map fun inner =>
        replaceMember k (.tables (inner :: earlier)) members
    | some _ => none

/-- Changes the table of a name in a header. The tables on the way are made if they are missing; of
several tables with one name the last is meant. -/
def alterUnder (f : List (String × Toml) → Option (List (String × Toml))) :
    List String → List (String × Toml) → Option (List (String × Toml))
  | [], members => f members
  | k :: path, members =>
    match members.lookup k with
    | none => (alterUnder f path []).map fun inner => members ++ [(k, .table .implied inner)]
    | some (.table kind inner) =>
      if kind = .inline then none
      else (alterUnder f path inner).map fun inner => replaceMember k (.table kind inner) members
    | some (.tables (last :: earlier)) =>
      (alterUnder f path last).map fun inner => replaceMember k (.tables (inner :: earlier)) members
    | some _ => none

/-- Defines the table of a header, which may so far only have been implied. -/
def defineTable (name : String) (members : List (String × Toml)) :
    Option (List (String × Toml)) :=
  match members.lookup name with
  | none => some (members ++ [(name, .table .defined [])])
  | some (.table .implied inner) => some (replaceMember name (.table .defined inner) members)
  | some _ => none

/-- Starts a further table of a header in double brackets. -/
def appendTable (name : String) (members : List (String × Toml)) :
    Option (List (String × Toml)) :=
  match members.lookup name with
  | none => some (members ++ [(name, .tables [[]])])
  | some (.tables elements) => some (replaceMember name (.tables ([] :: elements)) members)
  | some _ => none

end Toml

end PseudoBoolean
