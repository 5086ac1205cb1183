import PseudoBoolean.Decimal.Style
import PseudoBoolean.Json.Written

/-! # Writing JSON

A value is written compactly, or laid out over lines with two spaces for each level.
-/

namespace PseudoBoolean.Json

/-- Numbers in documents: positional from `1e-5` up to below `1e16`, and a whole number shows `.0`. -/
def numberStyle : Decimal.Style :=
  { tie := .even, positional := some (-5, 15), point := true, nan := "null", infinity := "null" }

/-- A double as it is written. Values without digits have no written form in JSON and become `null`. -/
def floatText (x : Float) : String :=
  if x.isFinite then numberStyle.text x else "null"

/-- A hexadecimal digit, in lower case. -/
def hexDigit (n : Nat) : Char :=
  if n < 10 then Char.ofNat ('0'.toNat + n) else Char.ofNat ('a'.toNat + (n - 10))

/-- A character inside a quoted text. Quotes, backslashes and control characters are escaped. -/
def escapeChar (c : Char) : List Char :=
  match c with
  | '"' => ['\\', '"']
  | '\\' => ['\\', '\\']
  | '\n' => ['\\', 'n']
  | '\r' => ['\\', 'r']
  | '\t' => ['\\', 't']
  | '\x08' => ['\\', 'b']
  | '\x0c' => ['\\', 'f']
  | c =>
    if c.toNat < 0x20 then ['\\', 'u', '0', '0', hexDigit (c.toNat / 16), hexDigit (c.toNat % 16)]
    else [c]

/-- A text in quotes. -/
def quoted (s : String) : String :=
  "\"" ++ String.ofList (s.toList.flatMap escapeChar) ++ "\""

/-- The text of a value that has no parts. -/
def scalarText : Json → String
  | bool true => "true"
  | bool false => "false"
  | integer n => toString n
  | float x => floatText x
  | string s => quoted s
  | null | array _ | object _ => "null"

mutual

/-- The text of a value without any white space. -/
def compact : Json → String
  | array items => "[" ++ ",".intercalate (compactItems items) ++ "]"
  | object members => "\x7b" ++ ",".intercalate (compactMembers members) ++ "\x7d"
  | j => scalarText j

/-- The texts of a list of values. -/
def compactItems : List Json → List String
  | [] => []
  | j :: items => compact j :: compactItems items

/-- The texts of a list of members. -/
def compactMembers : List (String × Json) → List String
  | [] => []
  | (name, j) :: members => (quoted name ++ ":" ++ compact j) :: compactMembers members

end

/-- The start of a line at a level of nesting. -/
def newLine (level : Nat) : String :=
  String.ofList ('\n' :: List.replicate (2 * level) ' ')

/-- Parts between brackets, each on a line of its own; without parts the brackets alone. -/
def block (level : Nat) (opening closing : String) (parts : List String) : String :=
  if parts.isEmpty then opening ++ closing
  else opening ++ newLine (level + 1) ++ ("," ++ newLine (level + 1)).intercalate parts ++
    newLine level ++ closing

mutual

/-- The text of a value over several lines, at a level of nesting. -/
def prettyAt (level : Nat) : Json → String
  | array items => block level "[" "]" (prettyItems (level + 1) items)
  | object members => block level "\x7b" "\x7d" (prettyMembers (level + 1) members)
  | j => scalarText j

/-- The texts of a list of values. -/
def prettyItems (level : Nat) : List Json → List String
  | [] => []
  | j :: items => prettyAt level j :: prettyItems level items

/-- The texts of a list of members. -/
def prettyMembers (level : Nat) : List (String × Json) → List String
  | [] => []
  | (name, j) :: members =>
    (quoted name ++ ": " ++ prettyAt level j) :: prettyMembers level members

end

/-- The text of a value over several lines. -/
def pretty (j : Json) : String :=
  prettyAt 0 j

end PseudoBoolean.Json
