/-! # Tables sorted by key

A finite map from keys to values, as the list of its entries in increasing order of the keys. Every
change of a table is an `alter`: one key gets a new value, or none, computed from the value it had.

The keys are ordered by their `Ord` instance. `Table.Sorted` says that the entries are strictly
increasing; `alter` keeps it, and on sorted tables `get?` sees exactly the entries.
-/

namespace PseudoBoolean

/-- The entries of a finite map, in increasing order of the keys. -/
abbrev Table (κ : Type) (α : Type) : Type := List (κ × α)

namespace Table

variable {κ α β : Type}

/-- The keys in increasing order. -/
def keys (t : Table κ α) : List κ :=
  t.map (·.1)

/-- The same keys with other values. -/
def mapValues (f : α → β) (t : Table κ α) : Table κ β :=
  t.map fun e => (e.1, f e.2)

variable [Ord κ]

/-- The entries are strictly increasing. -/
def Sorted (t : Table κ α) : Prop :=
  t.Pairwise fun a b => compare a.1 b.1 = .lt

/-- The value at a key. The search ends at the first larger key. -/
def get? (k : κ) : Table κ α → Option α
  | [] => none
  | (k', v) :: t =>
    match compare k k' with
    | .lt => none
    | .eq => some v
    | .gt => get? k t

/-- Whether the key has a value. -/
def contains (k : κ) (t : Table κ α) : Bool :=
  (t.get? k).isSome

/-- Replaces the value at a key by what `f` makes of it, where `none` stands for no value. -/
def alter (k : κ) (f : Option α → Option α) : Table κ α → Table κ α
  | [] =>
    match f none with
    | none => []
    | some v => [(k, v)]
  | (k', v') :: t =>
    match compare k k' with
    | .lt =>
      match f none with
      | none => (k', v') :: t
      | some v => (k, v) :: (k', v') :: t
    | .eq =>
      match f (some v') with
      | none => t
      | some v => (k, v) :: t
    | .gt => (k', v') :: alter k f t

/-- Sets the value at a key. -/
def insert (k : κ) (v : α) (t : Table κ α) : Table κ α :=
  t.alter k fun _ => some v

/-- Takes the key out of the table. -/
def erase (k : κ) (t : Table κ α) : Table κ α :=
  t.alter k fun _ => none

/-- The table of a list of entries; of several entries for one key the last counts. -/
def ofList (entries : List (κ × α)) : Table κ α :=
  entries.foldl (fun t e => t.insert e.1 e.2) []

end Table

/-- The elements of a list, each once and in increasing order. -/
def sortedSet {κ : Type} [Ord κ] (xs : List κ) : List κ :=
  (xs.foldl (fun t x => Table.insert x () t) ([] : Table κ Unit)).keys

end PseudoBoolean
