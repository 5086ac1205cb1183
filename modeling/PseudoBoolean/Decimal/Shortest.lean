import PseudoBoolean.Binary64

/-! # The shortest decimal that reads back

A double is the nearest one to every real number of an interval around it. Among the decimals of that
interval the written form takes one with the fewest digits, and of those the one nearest to the double.
For a given number of digits the decimals form a grid, and only the two neighbours of the double on it
can be nearest, so the search tries the grids from one digit upwards and looks at two points of each.
-/

namespace PseudoBoolean

/-- The decimal number `significand * 10 ^ exponent`. -/
structure Decimal where
  significand : Nat
  exponent : Int
  deriving Repr, DecidableEq

namespace Decimal

/-- Which of two equally near decimals is taken. -/
inductive Tie where
  | up
  | even
  deriving Repr, DecidableEq

/-- The number that the decimal stands for. -/
def toRat (d : Decimal) : Rat :=
  d.significand * (10 : Rat) ^ d.exponent

/-- The real numbers that are read as a given double: those between the midpoints to its two
neighbours, the midpoints included when the double has an even mantissa. -/
structure Span where
  lower : Rat
  upper : Rat
  closed : Bool

/-- Whether a rational number lies in the span. -/
def Span.contains (s : Span) (q : Rat) : Bool :=
  if s.closed then s.lower ≤ q && q ≤ s.upper else s.lower < q && q < s.upper

/-- The span of the double `m * 2 ^ e`. Below a power of two the next double is only half as far away
as above it, the smallest normal number excepted. -/
def spanOf (m : Nat) (e : Int) : Span :=
  let quarter := (2 : Rat) ^ (e - 2)
  let gap : Nat := if m = Nat.pow 2 52 ∧ -1074 < e then 1 else 2
  { lower := (4 * m - gap : Rat) * quarter
    upper := (4 * m + 2 : Rat) * quarter
    closed := m % 2 == 0 }

/-- The number of decimal digits of a whole number; zero has one. -/
def digitCount (n : Nat) : Nat :=
  (Nat.toDigits 10 n).length

/-- The exponent `k` with `10 ^ (k - 1) ≤ q < 10 ^ k`, for a positive `q` that is a whole number plus a
fraction, or a proper fraction that is no power of ten. -/
def leadingExponent (q : Rat) : Int :=
  if 1 ≤ q then digitCount q.floor.toNat else 1 - (digitCount (q⁻¹).floor.toNat : Int)

/-- The point of the grid of multiples of `10 ^ g` that lies in the span and is nearest to `q`. -/
def nearestOnGrid? (tie : Tie) (q : Rat) (span : Span) (g : Int) : Option Decimal :=
  let step := (10 : Rat) ^ g
  let c := (q / step).floor.toNat
  match span.contains (c * step), span.contains ((c + 1 : Nat) * step) with
  | false, false => none
  | true, false => some ⟨c, g⟩
  | false, true => some ⟨c + 1, g⟩
  | true, true =>
    let middle := (2 * c + 1 : Nat) * step
    if 2 * q < middle then some ⟨c, g⟩
    else if middle < 2 * q then some ⟨c + 1, g⟩
    else match tie with
      | .up => some ⟨c + 1, g⟩
      | .even => if c % 2 = 0 then some ⟨c, g⟩ else some ⟨c + 1, g⟩

/-- The same number without trailing zeros in the significand. -/
def trim (d : Decimal) : Decimal :=
  if h : d.significand ≠ 0 ∧ d.significand % 10 = 0 then
    trim ⟨d.significand / 10, d.exponent + 1⟩
  else d
termination_by d.significand
decreasing_by omega

/-- The shortest decimal that is read as the double `m * 2 ^ e`, for a positive `m`. Seventeen digits
are enough for every double. -/
def shortest (tie : Tie) (m : Nat) (e : Int) : Decimal :=
  let q : Rat := m * (2 : Rat) ^ e
  let span := spanOf m e
  let k := leadingExponent q
  let found := (List.range 17).findSome? fun (n : Nat) => nearestOnGrid? tie q span (k - 1 - n)
  (found.getD ⟨(q / (10 : Rat) ^ (k - 17)).floor.toNat, k - 17⟩).trim

end Decimal

end PseudoBoolean
