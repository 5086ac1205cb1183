import PseudoBoolean.Json.Number

/-! # Reading JSON

The text is cut into tokens: marks, and the values without parts. A machine with a stack of the arrays
and objects that are open puts the tokens together, one step for each.
-/

namespace PseudoBoolean.Json

/-! ## Quoted text -/

/-- The value of a hexadecimal digit. -/
def hexValue? (c : Char) : Option Nat :=
  if c.isDigit then some (c.toNat - '0'.toNat)
  else if 'a' ≤ c ∧ c ≤ 'f' then some (c.toNat - 'a'.toNat + 10)
  else if 'A' ≤ c ∧ c ≤ 'F' then some (c.toNat - 'A'.toNat + 10)
  else none

/-- The number of four hexadecimal digits. -/
def hexFour? (a b c d : Char) : Option Nat := do
  return ((← hexValue? a) * 16 + (← hexValue? b)) * 256 + ((← hexValue? c) * 16 + (← hexValue? d))

/-- The character that a letter stands for after a backslash. -/
def unescape? : Char → Option Char
  | '"' => some '"'
  | '\\' => some '\\'
  | '/' => some '/'
  | 'b' => some '\x08'
  | 'f' => some '\x0c'
  | 'n' => some '\n'
  | 'r' => some '\r'
  | 't' => some '\t'
  | _ => none

/-- The code units of a quoted text up to the closing quote, and what follows it. A character that is
written as itself or after a backslash is one unit; four hexadecimal digits give a unit of 16 bits. -/
def quotedUnits? : List Char → Option (List Nat × List Char)
  | [] => none
  | '"' :: rest => some ([], rest)
  | '\\' :: 'u' :: a :: b :: c :: d :: rest =>
    match hexFour? a b c d, quotedUnits? rest with
    | some n, some (units, rest) => some (n :: units, rest)
    | _, _ => none
  | '\\' :: e :: rest =>
    match unescape? e, quotedUnits? rest with
    | some c, some (units, rest) => some (c.toNat :: units, rest)
    | _, _ => none
  | c :: rest =>
    if c.toNat < 0x20 then none
    else (quotedUnits? rest).map fun (units, rest) => (c.toNat :: units, rest)

theorem quotedUnits?_length {cs rest : List Char} {units : List Nat}
    (h : quotedUnits? cs = some (units, rest)) : rest.length < cs.length := by
  fun_induction quotedUnits? cs generalizing units rest with
  | case1 => simp at h
  | case2 => simp_all
  | case3 _ _ _ _ _ _ _ _ hrest _ ih =>
    have := ih hrest
    simp_all
    omega
  | case4 => simp at h
  | case5 _ _ _ _ _ _ hrest _ ih =>
    have := ih hrest
    simp_all
    omega
  | case6 => simp at h
  | case7 => simp at h
  | case8 _ _ _ _ _ _ ih =>
    obtain ⟨⟨u, r⟩, hu, hr⟩ := Option.map_eq_some_iff.1 h
    have := ih hu
    simp_all
    omega

/-- Puts surrogate pairs together; half a pair has no character. -/
def characters? : List Nat → Option (List Char)
  | [] => some []
  | n :: units =>
    if 0xD800 ≤ n ∧ n < 0xDC00 then
      match units with
      | m :: units =>
        if 0xDC00 ≤ m ∧ m < 0xE000 then
          (characters? units).map (Char.ofNat (0x10000 + (n - 0xD800) * 0x400 + (m - 0xDC00)) :: ·)
        else none
      | [] => none
    else if 0xDC00 ≤ n ∧ n < 0xE000 then none
    else (characters? units).map (Char.ofNat n :: ·)

/-! ## Tokens -/

/-- A token: a bracket, comma or colon, a quoted text if it has a value, or any other value without
parts. -/
inductive Token where
  | mark (c : Char)
  | text (s : Option String)
  | value (j : WrittenJson)

/-- White space between tokens. -/
def isBlank (c : Char) : Bool :=
  c == ' ' || c == '\n' || c == '\t' || c == '\r'

/-- The characters of the marks. -/
def isMark (c : Char) : Bool :=
  c == '[' || c == ']' || c == '\x7b' || c == '\x7d' || c == ',' || c == ':'

/-- The characters that numbers are made of. -/
def isNumberPart (c : Char) : Bool :=
  c.isDigit || c == '-' || c == '+' || c == '.' || c == 'e' || c == 'E'

/-- The value of a word. -/
def word? (cs : List Char) : Option WrittenJson :=
  if cs = "true".toList then some (.bool true)
  else if cs = "false".toList then some (.bool false)
  else if cs = "null".toList then some .null
  else none

/-- The tokens of a text. -/
def tokens? : List Char → Option (List Token)
  | [] => some []
  | c :: cs =>
    if isBlank c then tokens? cs
    else if isMark c then (tokens? cs).map (.mark c :: ·)
    else if c = '"' then
      match h : quotedUnits? cs with
      | none => none
      | some (units, rest) =>
        have : rest.length < cs.length := quotedUnits?_length h
        (tokens? rest).map (.text ((characters? units).map String.ofList) :: ·)
    else
      let (value?, rest) :=
        if c.isDigit || c == '-' then (number? (c :: cs.takeWhile isNumberPart), isNumberPart)
        else (word? (c :: cs.takeWhile Char.isAlpha), Char.isAlpha)
      match value? with
      | none => none
      | some j =>
        have : (cs.dropWhile rest).length ≤ cs.length := (List.dropWhile_suffix rest).length_le
        (tokens? (cs.dropWhile rest)).map (.value j :: ·)
termination_by cs => cs.length

/-! ## Putting tokens together -/

/-- An array or object that is open, with what it holds so far, the last first. -/
inductive Frame where
  | array (items : List WrittenJson)
  | member (members : List (Option String × WrittenJson)) (name : Option String)

/-- What the machine waits for. -/
inductive State where
  /-- A value. -/
  | value (stack : List Frame)
  /-- The first item of an array, or its end. -/
  | item (stack : List Frame)
  /-- The name of a member; also the end of the object if it is the first. -/
  | name (stack : List Frame) (members : List (Option String × WrittenJson)) (isFirst : Bool)
  /-- The colon after the name of a member. -/
  | colon (stack : List Frame) (members : List (Option String × WrittenJson)) (name : Option String)
  /-- What comes after a complete value. -/
  | complete (stack : List Frame) (j : WrittenJson)

/-- Starts a value at a token. -/
def startValue (stack : List Frame) : Token → Option State
  | .text s => some (.complete stack (.ofText? s))
  | .value j => some (.complete stack j)
  | .mark '[' => some (.item stack)
  | .mark '\x7b' => some (.name stack [] true)
  | .mark _ => none

/-- One step of the machine. -/
def step : State → Token → Option State
  | .value stack, t => startValue stack t
  | .item stack, .mark ']' => some (.complete stack (.array []))
  | .item stack, t => startValue (.array [] :: stack) t
  | .name stack members true, .mark '\x7d' => some (.complete stack (.object members.reverse))
  | .name stack members _, .text s => some (.colon stack members s)
  | .colon stack members s, .mark ':' => some (.value (.member members s :: stack))
  | .complete (.array items :: stack) j, .mark ',' => some (.value (.array (j :: items) :: stack))
  | .complete (.array items :: stack) j, .mark ']' =>
    some (.complete stack (.array (j :: items).reverse))
  | .complete (.member members s :: stack) j, .mark ',' =>
    some (.name stack ((s, j) :: members) false)
  | .complete (.member members s :: stack) j, .mark '\x7d' =>
    some (.complete stack (.object ((s, j) :: members).reverse))
  | _, _ => none

/-- The value that a list of tokens forms. -/
def ofTokens? (tokens : List Token) : Option WrittenJson :=
  match tokens.foldlM step (.value []) with
  | some (.complete [] j) => some j
  | _ => none

/-- The value of a JSON text. -/
def parse? (text : String) : Option WrittenJson :=
  (tokens? text.toList).bind ofTokens?

end PseudoBoolean.Json
