import PseudoBoolean.Decimal.Shortest

/-! # Reading a double from its decimal text

The text is read as an exact decimal first, which is then rounded once to the nearest double.
-/

namespace PseudoBoolean.Decimal

/-- The value of a row of decimal digits. -/
def digitsValue (digits : List Char) : Nat :=
  digits.foldl (fun n c => 10 * n + (c.toNat - '0'.toNat)) 0

/-- The double nearest to a decimal with a sign. A decimal that is far outside the range of doubles
is not expanded: it is an infinity or a zero by the place of its leading digit alone. -/
def toFloat (negative : Bool) (d : Decimal) : Float :=
  let magnitude :=
    let k := d.exponent + digitCount d.significand
    if d.significand = 0 ∨ k < -330 then 0.0
    else if 310 < k then 1.0 / 0.0
    else Binary64.ofRat d.toRat
  if negative then -magnitude else magnitude

/-- An exponent mark, a sign that may be absent, and digits up to the end; no exponent is zero. -/
def readExponent? : List Char → Option Int
  | [] => some 0
  | mark :: rest =>
    if mark = 'e' ∨ mark = 'E' then
      let (negative, digits) := match rest with
        | '-' :: r => (true, r)
        | '+' :: r => (false, r)
        | r => (false, r)
      if digits ≠ [] ∧ digits.all Char.isDigit then
        some (if negative then -(digitsValue digits : Int) else digitsValue digits)
      else none
    else none

/-- Digits with an optional point and an optional exponent. Digits may be missing on one side of the
point, not on both. -/
def readUnsigned? (cs : List Char) : Option Decimal :=
  let (whole, rest) := cs.span Char.isDigit
  let (fraction, rest) := match rest with
    | '.' :: r => r.span Char.isDigit
    | r => ([], r)
  if whole = [] ∧ fraction = [] then none
  else (readExponent? rest).map fun e => ⟨digitsValue (whole ++ fraction), e - fraction.length⟩

/-- A double in the spelling accepted for a parameter value: a sign that may be absent, then a decimal
or, in either case of letters, the word for an infinity or for not-a-number. -/
def readFloat? (cs : List Char) : Option Float :=
  let (negative, body) := match cs with
    | '-' :: r => (true, r)
    | '+' :: r => (false, r)
    | r => (false, r)
  let word := String.ofList (body.map Char.toLower)
  if word = "inf" ∨ word = "infinity" then some (if negative then -1.0 / 0.0 else 1.0 / 0.0)
  else if word = "nan" then some (0.0 / 0.0)
  else (readUnsigned? body).map (toFloat negative)

end PseudoBoolean.Decimal
