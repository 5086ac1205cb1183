import PseudoBoolean.Decimal.Reader
import PseudoBoolean.Toml.Basic

/-! # TOML numbers, truth values and times

These values are written without quotes, from letters, digits and a few signs. The characters are taken
as a whole and then told apart by their form.
-/

namespace PseudoBoolean.Toml

/-- The characters of a value without quotes. -/
def isScalarPart (c : Char) : Bool :=
  c.isAlphanum || c == '_' || c == '+' || c == '-' || c == '.' || c == ':'

/-- Takes the underscores out of a row of digits. Each must stand between two digits. -/
def plainDigits? (isDigit : Char → Bool) : List Char → Option (List Char)
  | [] => none
  | [c] => if isDigit c then some [c] else none
  | c :: '_' :: rest => if isDigit c then (plainDigits? isDigit rest).map (c :: ·) else none
  | c :: rest => if isDigit c then (plainDigits? isDigit rest).map (c :: ·) else none

/-- The digits of a whole number in base ten, which start with zero only if zero is the only one. -/
def wholeDigits? (cs : List Char) : Option (List Char) :=
  (plainDigits? Char.isDigit cs).filter fun ds => ds.head? != some '0' || ds.length == 1

/-- A sign that may be absent, whether it is minus, and what follows it. -/
def sign (cs : List Char) : Bool × List Char :=
  match cs with
  | '-' :: rest => (true, rest)
  | '+' :: rest => (false, rest)
  | rest => (false, rest)

/-- The value of a digit in a base up to sixteen. -/
def digitValue (c : Char) : Nat :=
  if c.isDigit then c.toNat - '0'.toNat else c.toLower.toNat - 'a'.toNat + 10

/-- A number in another base, after its mark. -/
def basedInteger? (base : Nat) (isDigit : Char → Bool) (cs : List Char) : Option Int :=
  (plainDigits? isDigit cs).map fun ds =>
    (ds.foldl (fun n c => base * n + digitValue c) 0 : Nat)

/-- A whole number that fits 64 bits with a sign. -/
def integer? (cs : List Char) : Option Int :=
  let n? : Option Int := match cs with
    | '0' :: 'x' :: rest =>
      basedInteger? 16 (fun c => c.isDigit || ('a' ≤ c.toLower && c.toLower ≤ 'f')) rest
    | '0' :: 'o' :: rest => basedInteger? 8 (fun c => '0' ≤ c && c ≤ '7') rest
    | '0' :: 'b' :: rest => basedInteger? 2 (fun c => c == '0' || c == '1') rest
    | cs =>
      let (negative, rest) := sign cs
      (wholeDigits? rest).map fun ds =>
        let n : Int := Decimal.digitsValue ds
        if negative then -n else n
  n?.filter fun n => Int64.minValue.toInt ≤ n ∧ n ≤ Int64.maxValue.toInt

/-- The exponent after its mark. -/
def exponent? (cs : List Char) : Option Int :=
  let (negative, rest) := sign cs
  (plainDigits? Char.isDigit rest).map fun ds =>
    let n : Int := Decimal.digitsValue ds
    if negative then -n else n

/-- A number with a fraction, an exponent or both. -/
def decimal? (cs : List Char) : Option Decimal := do
  let isMark (c : Char) := c == 'e' || c == 'E'
  let mantissa := cs.takeWhile (!isMark ·)
  let e ← match cs.drop mantissa.length with
    | [] => some 0
    | _ :: rest => exponent? rest
  let whole := mantissa.takeWhile (· != '.')
  let ds ← wholeDigits? whole
  match mantissa.drop whole.length with
  | [] => if mantissa.length = cs.length then none else some ⟨Decimal.digitsValue ds, e⟩
  | _ :: rest =>
    let fraction ← plainDigits? Char.isDigit rest
    return ⟨Decimal.digitsValue (ds ++ fraction), e - fraction.length⟩

/-- A double. A number above the range of doubles is refused, infinity has to be written as a word. -/
def float? (cs : List Char) : Option Float :=
  let (negative, rest) := sign cs
  if rest = "inf".toList then some (if negative then -1.0 / 0.0 else 1.0 / 0.0)
  else if rest = "nan".toList then some (0.0 / 0.0)
  else ((decimal? rest).map (Decimal.toFloat negative)).filter fun x => !(x.isInf && 0.0 < x)

/-! ## Dates and times -/

/-- A number of exactly `n` digits from `lower` to `upper`, and what follows it. -/
def field? (n lower upper : Nat) (cs : List Char) : Option (Nat × List Char) :=
  let ds := cs.take n
  let value := Decimal.digitsValue ds
  if ds.length = n ∧ ds.all Char.isDigit ∧ lower ≤ value ∧ value ≤ upper then
    some (value, cs.drop n)
  else none

/-- What follows a given character. -/
def expect? (c : Char) : List Char → Option (List Char)
  | d :: rest => if d = c then some rest else none
  | [] => none

/-- The number of days of a month. -/
def daysIn (year month : Nat) : Nat :=
  if month = 2 then
    if year % 4 = 0 ∧ (year % 100 ≠ 0 ∨ year % 400 = 0) then 29 else 28
  else if [4, 6, 9, 11].contains month then 30 else 31

/-- What follows a date. -/
def date? (cs : List Char) : Option (List Char) := do
  let (year, cs) ← field? 4 0 9999 cs
  let (month, cs) ← field? 2 1 12 (← expect? '-' cs)
  let (_, cs) ← field? 2 1 (daysIn year month) (← expect? '-' cs)
  return cs

/-- What follows a time of day. -/
def clock? (cs : List Char) : Option (List Char) := do
  let (_, cs) ← field? 2 0 23 cs
  let (_, cs) ← field? 2 0 59 (← expect? ':' cs)
  let (_, cs) ← field? 2 0 60 (← expect? ':' cs)
  match cs with
  | '.' :: rest => if rest.head?.any Char.isDigit then some (rest.dropWhile Char.isDigit) else none
  | cs => some cs

/-- Whether the characters are nothing or the distance of a time zone. -/
def isOffset (cs : List Char) : Bool :=
  match cs with
  | [] => true
  | ['Z'] | ['z'] => true
  | c :: rest =>
    (c == '+' || c == '-') &&
      ((field? 2 0 23 rest).bind fun (_, rest) => (expect? ':' rest).bind (field? 2 0 59)).any
        (·.2.isEmpty)

/-- Whether the characters form a date, a time of day, or both. -/
def isTime (cs : List Char) : Bool :=
  match date? cs with
  | some [] => true
  | some (c :: rest) => (c == 'T' || c == 't' || c == ' ') && (clock? rest).any isOffset
  | none => clock? cs == some []

/-- The value that is written without quotes. -/
def scalar? (cs : List Char) : Option Toml :=
  if cs = "true".toList then some (.bool true)
  else if cs = "false".toList then some (.bool false)
  else match integer? cs, float? cs with
    | some n, _ => some (.integer n)
    | none, some x => some (.float x)
    | none, none => if isTime cs then some .time else none

end PseudoBoolean.Toml
