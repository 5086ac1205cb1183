import PseudoBoolean.Decimal.Style

/-! # Numbers: exact or floating

A number is an exact rational or a double. An operation on exact numbers is exact; as soon as one
operand is a double, both are taken as doubles and so is the result. Sums and products of exact numbers
are therefore the rational ones, whatever their size, and a double marks a value that has been rounded.
-/

namespace PseudoBoolean

/-- An exact rational number or a double. -/
inductive Number where
  | exact (q : Rat)
  | float (x : Float)
  deriving DecidableEq

namespace Number

instance : Inhabited Number := ⟨.exact 0⟩

instance (n : Nat) : OfNat Number n := ⟨.exact n⟩

/-- A whole number, exactly. -/
def ofInt (n : Int) : Number := .exact n

/-- The nearest double. -/
def toFloat : Number → Float
  | exact q => Binary64.ofRat q
  | float x => x

/-- Zero, of either sign in the case of a double. -/
def isZero : Number → Bool
  | exact q => q == 0
  | float x => x == 0.0

def isOne : Number → Bool
  | exact q => q == 1
  | float x => x == 1.0

def isExact : Number → Bool
  | exact _ => true
  | float _ => false

def isNegative : Number → Bool
  | exact q => q < 0
  | float x => x < 0.0

/-- The rational value; infinities and not-a-number have none. -/
def toRat? : Number → Option Rat
  | exact q => some q
  | float x => Binary64.toRat? x

/-- The value as an integer, if it is one. -/
def toInt? (a : Number) : Option Int :=
  a.toRat?.bind fun q => if q.den = 1 then some q.num else none

def isInteger (a : Number) : Bool :=
  a.toInt?.isSome

/-- The value as an integer of the signed 64-bit range, if it is one. -/
def toInt64? (a : Number) : Option Int :=
  a.toInt?.filter fun n => Int64.minValue.toInt ≤ n ∧ n ≤ Int64.maxValue.toInt

/-! ## Arithmetic -/

/-- The rule for two operands: `exact` on exact numbers, `float` as soon as one is a double. -/
def combine (exact : Rat → Rat → Rat) (float : Float → Float → Float) : Number → Number → Number
  | .exact p, .exact q => .exact (exact p q)
  | a, b => .float (float a.toFloat b.toFloat)

protected def add : Number → Number → Number := combine (· + ·) (· + ·)

protected def sub : Number → Number → Number := combine (· - ·) (· - ·)

protected def mul : Number → Number → Number := combine (· * ·) (· * ·)

protected def neg : Number → Number
  | exact q => exact (-q)
  | float x => float (-x)

instance : Add Number := ⟨Number.add⟩

instance : Sub Number := ⟨Number.sub⟩

instance : Mul Number := ⟨Number.mul⟩

instance : Neg Number := ⟨Number.neg⟩

/-- The quotient, which a divisor of zero does not have. -/
def div? (a b : Number) : Option Number :=
  if b.isZero then none else some (combine (· / ·) (· / ·) a b)

/-- The reciprocal of a number other than zero. -/
def recip? (a : Number) : Option Number :=
  div? 1 a

def abs : Number → Number
  | exact q => exact (if q < 0 then -q else q)
  | float x => float x.abs

/-- The largest whole number that is not above. -/
def floor : Number → Number
  | exact q => exact q.floor
  | float x => float (Binary64.floor x)

/-- The floor of the quotient. -/
def floorDiv? (a b : Number) : Option Number :=
  (div? a b).map floor

/-- An exponent of unsigned 32 bits read as a signed one: the upper half of the range is negative. -/
def signedExponent (n : Nat) : Int :=
  Int.bmod n UInt32.size

/-- Rounding to decimal places, halves away from zero. A double is scaled, rounded to a whole double
and scaled back, with a rounding at each step. -/
def roundTo (places : Nat) : Number → Number
  | exact q => exact (Rational.roundTo places q)
  | float x =>
    let scale := Binary64.powInt 10.0 (signedExponent places)
    float (Binary64.round (x * scale) / scale)

/-- A power with an exponent of unsigned 32 bits. -/
def pow (a : Number) (n : Nat) : Number :=
  match a with
  | exact q => exact (q ^ n)
  | float x => float (Binary64.powInt x (signedExponent n))

/-! ## Comparison -/

/-- Equality of values; a double and an exact number are compared as doubles. -/
def valueEq : Number → Number → Bool
  | exact p, exact q => p == q
  | a, b => a.toFloat == b.toFloat

/-- The order of values; not-a-number is not comparable. -/
def compare? : Number → Number → Option Ordering
  | exact p, exact q => some (if p < q then .lt else if p = q then .eq else .gt)
  | a, b =>
    let x := a.toFloat
    let y := b.toFloat
    if x < y then some .lt else if x == y then some .eq else if y < x then some .gt else none

/-- Whether `a ≤ b` holds. -/
def le (a b : Number) : Bool :=
  match a.compare? b with
  | some .lt | some .eq => true
  | _ => false

/-- Whether `a < b` holds. -/
def lt (a b : Number) : Bool :=
  a.compare? b == some .lt

/-- The largest magnitude in a list. A later number replaces the one held so far unless the latter is
at least as large, so not-a-number does not stay. -/
def maxAbs (xs : List Number) : Option Number :=
  xs.foldl (fun best x => match best with
    | some b => if le x.abs b then some b else some x.abs
    | none => some x.abs) none

/-- The text of a number: a fraction in lowest terms, or the digits of a double. -/
def text : Number → String
  | exact q => Rational.text q
  | float x => Decimal.plain.text x

end Number

end PseudoBoolean
