/-! # Double precision numbers as exact rationals

Exact coefficients are rational numbers. Beside the field operations they need rounding, to an integer or
to a number of decimal places, and a written form, `3`, `-1/2`.

A finite double is a rational number, and every rational number has a nearest double. This module
holds the two directions, `toRat?` and `ofRat`, and the few operations on doubles that are easiest to
say through them: the floor, the nearest integer, and integer powers.

All of it goes through the unpacked form of a double (a sign, a whole mantissa and a power of two),
so each definition can be evaluated and reasoned about without looking at the machine's operations.
-/

namespace PseudoBoolean

/-! ## Rational numbers: rounding and text -/

namespace Rational

/-- The nearest integer, halves away from zero. -/
def nearestInt (q : Rat) : Int :=
  if q < 0 then -(-q + 1 / 2).floor else (q + 1 / 2).floor

/-- The nearest number with at most `places` decimal places, halves away from zero. -/
def roundTo (places : Nat) (q : Rat) : Rat :=
  nearestInt (q * 10 ^ places) / 10 ^ places

/-- A whole number in decimal digits; any other as a fraction in lowest terms. -/
def text (q : Rat) : String :=
  if q.den = 1 then toString q.num else toString q.num ++ "/" ++ toString q.den

end Rational

/-! ## Doubles -/

namespace Binary64

open Float.Model

/-- The sign of a double as its unpacked form records it: that of the sign bit. -/
def isSignNegative (x : Float) : Bool :=
  x.toBits >>> 63 == 1

/-- The rational number that a finite double stands for; infinities and not-a-number have none. -/
def toRat? (x : Float) : Option Rat :=
  match (Float.Model.ofBits x.toBits).unpack with
  | .finite sign m e _ => some ((sign.apply (m : Int) : Rat) * (2 : Rat) ^ e)
  | .zero _ => some 0
  | .infinity _ => none
  | .notANumber => none

/-- The zero that carries the given sign. -/
def signedZero (negative : Bool) : Float :=
  if negative then -0.0 else 0.0

/-- A whole number with a sign in unpacked form, with a mantissa of any length. -/
def unpackedWhole (sign : UnpackedFloat.Sign) (n : Nat) : UnpackedFloat :=
  if h : 0 < n then .finite sign n 0 h else .zero sign

/-- The double nearest to a rational number, ties to the even mantissa. A magnitude beyond the
largest double gives an infinity, and one that rounds to nothing a zero with the number's sign. -/
def ofRat (q : Rat) : Float :=
  let sign : UnpackedFloat.Sign := if q < 0 then .negative else .positive
  let quotient := UnpackedFloat.div .binary64 (unpackedWhole sign q.num.natAbs)
    (unpackedWhole .positive q.den)
  Float.ofBits (Float.Model.pack quotient).toBits

/-- Whether a double is finite and has no fractional part. -/
def isWhole (x : Float) : Bool :=
  match toRat? x with
  | some q => q.den == 1
  | none => false

/-- The double for a whole number that has the sign of `x`; a zero keeps the sign bit of `x`. -/
private def wholeLike (x : Float) (n : Int) : Float :=
  if n = 0 then signedZero (isSignNegative x) else ofRat n

/-- The largest whole number that is not above `x`; infinities and not-a-number stay as they are. -/
def floor (x : Float) : Float :=
  match toRat? x with
  | some q => wholeLike x q.floor
  | none => x

/-- The nearest whole double, halves away from zero; a result of zero keeps the sign of `x`. -/
def round (x : Float) : Float :=
  match toRat? x with
  | some q => wholeLike x (Rational.nearestInt q)
  | none => x

/-- The loop of `powInt`: `acc` times the `n`-th power of `x`, squaring `x` at each binary digit. The
order of the multiplications is part of the result, because each of them rounds. -/
def powLoop (acc x : Float) (n : Nat) : Float :=
  let acc := if n % 2 = 1 then acc * x else acc
  if n / 2 = 0 then acc else powLoop acc (x * x) (n / 2)
termination_by n
decreasing_by omega

/-- A power with a whole exponent; a negative exponent takes the reciprocal of the finished power. -/
def powInt (x : Float) (n : Int) : Float :=
  let power := powLoop 1.0 x n.natAbs
  if n < 0 then 1.0 / power else power

end Binary64

end PseudoBoolean
