import PseudoBoolean.Decimal.Reader
import PseudoBoolean.Json.Written

/-! # Reading JSON numbers

A number without point and exponent that fits 64 bits is a whole number. Any other is a double, computed
in the arithmetic of doubles: digits are taken into a significand of 64 bits as long as they fit, and the
significand is multiplied or divided by powers of ten. Each of these steps rounds, so the result need not
be the double nearest to the written decimal.
-/

namespace PseudoBoolean.Json

/-- A significand of 64 bits with a power of ten. -/
structure Scaled where
  significand : Nat
  exponent : Int
  deriving DecidableEq, Repr

namespace Scaled

/-- The value of a digit. -/
def digit (c : Char) : Nat :=
  c.toNat - '0'.toNat

/-- Takes in the digits before the point. The first that does not fit and those after it count in the
exponent only. -/
def takeWhole (s : Scaled) : List Char → Scaled
  | [] => s
  | c :: cs =>
    let n := 10 * s.significand + digit c
    if n < UInt64.size then takeWhole ⟨n, s.exponent⟩ cs
    else ⟨s.significand, s.exponent + (cs.length + 1 : Nat)⟩

/-- Takes in the digits after the point, up to the first that does not fit. -/
def takeFraction (s : Scaled) : List Char → Scaled
  | [] => s
  | c :: cs =>
    let n := 10 * s.significand + digit c
    if n < UInt64.size then takeFraction ⟨n, s.exponent - 1⟩ cs else s

/-- The largest power of ten that is a double. -/
def largestPower : Nat := 308

/-- A power of ten as a double. -/
def powerOfTen (n : Nat) : Float :=
  Binary64.ofRat (10 ^ n)

/-- Multiplies a double by a power of ten, or divides it by one, in as few steps as there are powers for.
There is no result beyond the range of doubles. -/
def scale? (x : Float) (e : Int) : Option Float :=
  if e.natAbs ≤ largestPower then
    if 0 ≤ e then
      let y := x * powerOfTen e.natAbs
      if y.isInf then none else some y
    else some (x / powerOfTen e.natAbs)
  else if x == 0.0 then some x
  else if 0 ≤ e then none
  else scale? (x / powerOfTen largestPower) (e + largestPower)
termination_by e.natAbs
decreasing_by
  simp only [largestPower] at *
  omega

/-- The double that the significand and the exponent stand for. -/
def toFloat? (s : Scaled) : Option Float :=
  scale? (Binary64.ofRat s.significand) s.exponent

end Scaled

/-- The parts of a written number. -/
structure NumberParts where
  negative : Bool
  whole : List Char
  /-- The digits after the point, if there is one. -/
  fraction : Option (List Char)
  /-- The sign and the digits of the exponent, if there is one. -/
  exponent : Option (Bool × List Char)
  deriving DecidableEq

namespace NumberParts

/-- Digits, of which there is at least one, and what follows them. -/
def digits? (cs : List Char) : Option (List Char × List Char) :=
  let (digits, rest) := cs.span Char.isDigit
  if digits.isEmpty then none else some (digits, rest)

/-- The exponent up to the end: nothing, or a mark, a sign that may be absent, and digits. -/
def exponent? : List Char → Option (Option (Bool × List Char))
  | [] => some none
  | mark :: rest =>
    if mark = 'e' ∨ mark = 'E' then
      let (negative, rest) := match rest with
        | '-' :: r => (true, r)
        | '+' :: r => (false, r)
        | r => (false, r)
      match digits? rest with
      | some (digits, []) => some (some (negative, digits))
      | _ => none
    else none

/-- Takes a number apart. The digits before the point start with zero only if zero is the only one. -/
def ofChars? (cs : List Char) : Option NumberParts := do
  let (negative, rest) := match cs with
    | '-' :: r => (true, r)
    | r => (false, r)
  let (whole, rest) ← digits? rest
  if whole.head? = some '0' ∧ whole ≠ ['0'] then none
  match rest with
  | '.' :: rest =>
    let (fraction, rest) ← digits? rest
    return ⟨negative, whole, some fraction, ← exponent? rest⟩
  | rest => return ⟨negative, whole, none, ← exponent? rest⟩

/-- The exponent as a number. -/
def exponentValue (p : NumberParts) : Int :=
  match p.exponent with
  | none => 0
  | some (negative, digits) =>
    let n : Int := Decimal.digitsValue digits
    if negative then -n else n

/-- The number as a double. -/
def toFloat? (p : NumberParts) : Option Float :=
  let s := (Scaled.takeWhole ⟨0, 0⟩ p.whole).takeFraction (p.fraction.getD [])
  let s := { s with exponent := s.exponent + p.exponentValue }
  s.toFloat?.map fun x => if p.negative then -x else x

/-- The value of a number: whole if it is written so, is not `-0` and fits 64 bits. -/
def value (p : NumberParts) : WrittenJson :=
  let n := Decimal.digitsValue p.whole
  let isWhole := p.fraction.isNone && p.exponent.isNone
  if isWhole && !p.negative && n < UInt64.size then .integer n
  else if isWhole && p.negative && 0 < n && n ≤ Int64.minValue.toInt.natAbs then .integer (-n)
  else match p.toFloat? with
    | some x => .float x
    | none => .unreadable

end NumberParts

/-- The value of a written number. -/
def number? (cs : List Char) : Option WrittenJson :=
  (NumberParts.ofChars? cs).map NumberParts.value

end PseudoBoolean.Json
