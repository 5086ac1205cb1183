/-! # Files

What a command asks of the files around it: to read the text at a path, and to write one. `FileAccess`
is this interface. A `Directory` answers it without any effect outside: it is a table of texts by place,
in which the directories are those that the places of the files mention. Paths start at the working
directory, which may be left upwards; what is not in the table counts as empty.
-/

namespace PseudoBoolean

/-- Why a file cannot be read or written. -/
inductive FileError where
  /-- There is no such file, or no directory for it. -/
  | missing
  /-- The path leads through a file. -/
  | notDirectory
  /-- The path leads to a directory. -/
  | isDirectory
  /-- The path, or a name in it, is longer than the system admits. -/
  | nameTooLong
  /-- Any other reason. -/
  | other (reason : String)
  deriving DecidableEq

/-- The reason as the operating system words it. -/
def FileError.message : FileError → String
  | missing => "No such file or directory (os error 2)"
  | notDirectory => "Not a directory (os error 20)"
  | isDirectory => "Is a directory (os error 21)"
  | nameTooLong => "File name too long (os error 36)"
  | other reason => reason

/-- Reading and writing texts by path. -/
class FileAccess (m : Type → Type) where
  read : String → m (Except FileError String)
  write : String → String → m (Except FileError Unit)

/-- A directory from which the names of a place start. -/
inductive Base where
  /-- The top of all directories. -/
  | root
  /-- The directory so many levels above the working directory. -/
  | above (levels : Nat)
  deriving DecidableEq

/-- A place where a file or a directory may be. -/
structure Place where
  base : Base
  names : List String
  deriving DecidableEq

namespace Place

/-- The place with one more name. -/
def child (place : Place) (name : String) : Place :=
  { place with names := place.names ++ [name] }

/-- The directory that a place is in. The root is in itself. -/
def parent : Place → Place
  | ⟨.root, []⟩ => ⟨.root, []⟩
  | ⟨.above n, []⟩ => ⟨.above (n + 1), []⟩
  | ⟨base, names⟩ => ⟨base, names.dropLast⟩

/-- Whether a place lies below another one. -/
def isBelow (inner outer : Place) : Bool :=
  inner.base == outer.base && outer.names.length < inner.names.length &&
    outer.names.isPrefixOf inner.names

/-- The place at a path that leads down from the working directory. -/
def working (path : String) : Place :=
  ⟨.above 0, (path.splitOn "/").filter fun name => name ≠ "" ∧ name ≠ "."⟩

/-- The file that is empty whatever is written to it. -/
def nullDevice : Place := ⟨.root, ["dev", "null"]⟩

end Place

/-- Files by their places, with their texts. -/
structure Directory where
  files : List (Place × String)

namespace Directory

/-- The files at given paths in the working directory, and the null device. -/
def ofList (files : List (String × String)) : Directory :=
  ⟨files.map (fun (path, text) => (.working path, text)) ++ [(.nullDevice, "")]⟩

/-- The text of the file at a place. -/
def text? (dir : Directory) (place : Place) : Option String :=
  dir.files.lookup place

/-- Whether a place is a directory: a base, or a place with files below it. -/
def isDirectory (dir : Directory) (place : Place) : Bool :=
  place.names.isEmpty || dir.files.any fun f => f.1.isBelow place

/-! ## Paths -/

/-- The greatest number of bytes in the name of a file. -/
def nameLimit : Nat := 255

/-- The number of bytes that a path cannot have. -/
def pathLimit : Nat := 4096

/-- The place that is reached from another one along a list of names. Every step must start at a
directory. -/
def follow (dir : Directory) (place : Place) : List String → Except FileError Place
  | [] => .ok place
  | name :: path =>
    if (dir.text? place).isSome then .error .notDirectory
    else if !dir.isDirectory place then .error .missing
    else if name = "" ∨ name = "." then dir.follow place path
    else if name = ".." then dir.follow place.parent path
    else if nameLimit < name.utf8ByteSize then .error .nameTooLong
    else dir.follow (place.child name) path

/-- Where a path starts, and the names along which it leads. -/
def route (path : String) : Except FileError (Place × List String) :=
  if path = "" then .error .missing
  else if pathLimit ≤ path.utf8ByteSize then .error .nameTooLong
  else .ok (⟨if path.startsWith "/" then .root else .above 0, []⟩, path.splitOn "/")

/-- The names along which the place of a new file is found. A path with a slash at its end can only be
that of a directory, so the name before the slash is not looked up: the directory around it is taken. -/
def routeForWriting (names : List String) : List String :=
  if names.getLast? = some "" then
    ("." :: (names.reverse.dropWhile (· = "")).tail).reverse
  else names

/-! ## Reading and writing -/

/-- The text at a path. -/
def read (dir : Directory) (path : String) : Except FileError String := do
  let (start, names) ← route path
  let place ← dir.follow start names
  match dir.text? place with
  | some text => .ok text
  | none => .error (if dir.isDirectory place then .isDirectory else .missing)

/-- The files with a text at a path. The directory of the path must be there. -/
def write (dir : Directory) (path text : String) : Except FileError Directory := do
  let (start, names) ← route path
  let place ← dir.follow start (routeForWriting names)
  if dir.isDirectory place then .error .isDirectory
  else if place = .nullDevice then .ok dir
  else .ok ⟨(place, text) :: dir.files.filter (·.1 != place)⟩

instance : FileAccess (StateM Directory) where
  read path := do return (← get).read path
  write path text := do
    match (← get).write path text with
    | .ok dir => set dir; return .ok ()
    | .error e => return .error e

end Directory

end PseudoBoolean
