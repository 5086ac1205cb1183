import PseudoBoolean.Decimal.Reader

/-! # Command lines

The words of a command line are taken from left to right. Options may stand before or after the name of
the command, if they belong to it, and end with `--`; the first thing that is wrong, or asks for help or
for the version, decides.
-/

namespace PseudoBoolean

/-! ## White space -/

namespace Text

/-- Whether a character has the Unicode property White_Space. -/
def isBlank (c : Char) : Bool :=
  let n := c.toNat
  (9 ≤ n && n ≤ 13) || n == 0x20 || n == 0x85 || n == 0xA0 || n == 0x1680 ||
    (0x2000 ≤ n && n ≤ 0x200A) || n == 0x2028 || n == 0x2029 || n == 0x202F || n == 0x205F ||
    n == 0x3000

/-- The text without the white space at its two ends. -/
def strip (cs : List Char) : List Char :=
  ((cs.dropWhile isBlank).reverse.dropWhile isBlank).reverse

end Text

/-! ## Commands -/

/-- The canonical forms that can be asked for. -/
inductive Form where
  | qubo
  | ising
  | pubo
  | hising
  deriving DecidableEq

namespace Form

/-- The name of a form. -/
def text : Form → String
  | qubo => "qubo"
  | ising => "ising"
  | pubo => "pubo"
  | hising => "hising"

/-- The form of a name. -/
def ofText? (s : String) : Option Form :=
  [qubo, ising, pubo, hising].find? fun f => f.text == s

end Form

/-- A model document and values for its parameters. -/
structure ModelSource where
  path : String
  values : List (String × Float)

/-- What is to be done. -/
inductive Command where
  /-- Print a canonical form of a model. -/
  | convert (source : ModelSource) (form : Form) (degree : Option Nat)
  /-- Print the best assignments of a model, all of them or one. -/
  | solve (source : ModelSource) (all : Bool)
  /-- Write the settings in effect to a file. -/
  | initConfig

/-- A command with the path of the settings, if one is given. -/
structure Invocation where
  configPath : Option String
  command : Command

/-- Why the words of a command line are no command to carry out. -/
inductive NoCommand where
  /-- Help is asked for. -/
  | help
  /-- The version is asked for. -/
  | version
  /-- The words are not understood. -/
  | usage
  deriving DecidableEq

namespace Arguments

/-- The names of the commands. -/
inductive Name where
  | convert
  | solve
  | initConfig
  deriving DecidableEq

/-- The command of a name. -/
def Name.ofText? : String → Option Name
  | "convert" => some convert
  | "solve" => some solve
  | "init-config" => some initConfig
  | _ => none

/-- What has been given so far. -/
structure Given where
  /-- The name of the command, once it has been met. -/
  command : Option Name := none
  /-- The path of the settings before the name of the command. -/
  outerConfig : Option String := none
  /-- The path of the settings at the place of the words that follow. -/
  config : Option String := none
  path : Option String := none
  values : List (String × Float) := []
  form : Option Form := none
  degree : Option Nat := none
  all : Bool := false

/-- The options. -/
inductive Flag where
  | help
  | version
  | verbose
  | config
  | set
  | form
  | degree
  | all
  deriving DecidableEq

namespace Flag

/-- The name of an option after two dashes. -/
def text : Flag → String
  | help => "help"
  | version => "version"
  | verbose => "verbose"
  | config => "config"
  | set => "set"
  | form => "to"
  | degree => "degree"
  | all => "all"

/-- The options before the name of a command and those that belong to it. -/
def available : Option Name → List Flag
  | none => [help, version, verbose, config]
  | some .convert => [help, verbose, config, set, form, degree]
  | some .solve => [help, verbose, config, set, all]
  | some .initConfig => [help, verbose, config]

/-- The letter of an option after one dash. -/
def letter? : Flag → Option Char
  | help => some 'h'
  | version => some 'V'
  | verbose => some 'v'
  | _ => none

/-- Whether an option is followed by a value. -/
def hasValue : Flag → Bool
  | config | set | form | degree => true
  | help | version | verbose | all => false

end Flag

/-- A name and a value on the two sides of the first equals sign. -/
def binding? (s : String) : Option (String × Float) :=
  let name := s.toList.takeWhile (· != '=')
  match s.toList.drop name.length with
  | [] => none
  | _ :: value =>
    (Decimal.readFloat? (Text.strip value)).map fun x => (String.ofList (Text.strip name), x)

/-- A count of 64 bits, with or without a plus sign. -/
def count? (s : String) : Option Nat :=
  let digits := match s.toList with
    | '+' :: rest => rest
    | cs => cs
  if digits ≠ [] ∧ digits.all Char.isDigit ∧ Decimal.digitsValue digits < UInt64.size then
    some (Decimal.digitsValue digits)
  else none

/-- A path, which has at least one character. -/
def path? (s : String) : Option String :=
  if s = "" then none else some s

/-- Takes a value for something that may be given only once. -/
def once {α : Type} (old new : Option α) : Except NoCommand (Option α) :=
  match old, new with
  | none, some a => .ok (some a)
  | _, _ => .error .usage

/-- Takes an option without a value. -/
def takeFlag (given : Given) : Flag → Except NoCommand Given
  | .help => .error .help
  | .version => .error .version
  | .all => if given.all then .error .usage else .ok { given with all := true }
  | _ => .ok given

/-- Takes an option with its value. -/
def takeValue (given : Given) (value : String) : Flag → Except NoCommand Given
  | .config => do return { given with config := ← once given.config (path? value) }
  | .form => do return { given with form := ← once given.form (Form.ofText? value) }
  | .degree => do return { given with degree := ← once given.degree (count? value) }
  | .set => do
    match binding? value with
    | some b => return { given with values := given.values ++ [b] }
    | none => throw .usage
  | _ => .error .usage

/-- Takes the letters after one dash. -/
def takeLetters (given : Given) (letters : List Char) : Except NoCommand Given :=
  letters.foldlM (fun given c =>
    match (Flag.available given.command).find? fun f => f.letter? == some c with
    | some f => takeFlag given f
    | none => .error .usage) given

/-- Takes a word that is no option: the name of the command, which stands before `--`, or the path of its
document. -/
def takeWord (given : Given) (isOpen : Bool) (word : String) : Except NoCommand Given :=
  match given.command with
  | none =>
    match if isOpen then Name.ofText? word else none with
    | some name => .ok { given with command := some name, outerConfig := given.config, config := none }
    | none => .error .usage
  | some .initConfig => .error .usage
  | some _ => do return { given with path := ← once given.path (path? word) }

/-- What is asked for by the words after `help`, of which there may be one, a name. -/
def helpOn : List String → NoCommand
  | [] | ["help"] => .help
  | [word] => if (Name.ofText? word).isSome then .help else .usage
  | _ => .usage

/-- What a word looks like by itself. -/
inductive Shape where
  /-- The end of the options. -/
  | separator
  /-- An option by its name, with a value if there is an equals sign. -/
  | long (name : String) (value : Option String)
  /-- Options by their letters. -/
  | short (letters : List Char)
  /-- No option. -/
  | plain
  deriving DecidableEq

/-- The shape of a word. A dash alone is no option. -/
def Shape.of (word : String) : Shape :=
  match word.toList with
  | ['-', '-'] => separator
  | '-' :: '-' :: cs =>
    let name := cs.takeWhile (· != '=')
    long (String.ofList name) ((cs.drop name.length).tail?.map String.ofList)
  | '-' :: c :: cs => short (c :: cs)
  | _ => plain

/-- Takes words from left to right; `isOpen` says that options may still follow. -/
def takeAll (given : Given) (isOpen : Bool) : List String → Except NoCommand Given
  | [] => .ok given
  | word :: rest =>
    match if isOpen then Shape.of word else .plain with
    | .separator => takeAll given false rest
    | .plain =>
      if given.command = none ∧ isOpen ∧ word = "help" then .error (helpOn rest)
      else (takeWord given isOpen word).bind fun given => takeAll given isOpen rest
    | .short letters => (takeLetters given letters).bind fun given => takeAll given isOpen rest
    | .long name value =>
      match (Flag.available given.command).find? fun f => f.text == name with
      | none => .error .usage
      | some f =>
        if f.hasValue then
          match value, rest with
          | some v, rest => (takeValue given v f).bind fun given => takeAll given isOpen rest
          | none, v :: rest =>
            if Shape.of v = .plain then
              (takeValue given v f).bind fun given => takeAll given isOpen rest
            else .error .usage
          | none, [] => .error .usage
        else if value.isSome then .error .usage
        else (takeFlag given f).bind fun given => takeAll given isOpen rest

/-- The command that has been given, if nothing is missing. -/
def Given.command? (given : Given) : Option Command :=
  match given.command, given.path, given.form with
  | some .convert, some path, some form => some (.convert ⟨path, given.values⟩ form given.degree)
  | some .solve, some path, _ => some (.solve ⟨path, given.values⟩ given.all)
  | some .initConfig, _, _ => some .initConfig
  | _, _, _ => none

end Arguments

/-- The invocation that the words of a command line stand for. -/
def Invocation.ofWords (words : List String) : Except NoCommand Invocation := do
  let given ← Arguments.takeAll {} true words
  match given.command? with
  | some command => return ⟨given.config <|> given.outerConfig, command⟩
  | none => throw .usage

end PseudoBoolean
