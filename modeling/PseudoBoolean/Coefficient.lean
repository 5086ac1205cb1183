import PseudoBoolean.Symbolic

/-! # Coefficients

A coefficient is a number, or a polynomial in parameters that are to be given values later. The
operations keep the second form for values that do depend on a parameter: a polynomial that has become
constant is put back as a number by `Coefficient.ofSymbolic`. So a coefficient is zero only as a number,
and division, which needs a number below the line, can tell one at sight.
-/

namespace PseudoBoolean

/-- Why an operation on coefficients has no result. -/
inductive CoefficientError where
  /-- The divisor is zero. -/
  | divisionByZero
  /-- The divisor depends on parameters. -/
  | symbolicDivisor (divisor : Symbolic)
  /-- A number was needed, and these parameters have no value. -/
  | unresolved (params : List String)
  deriving DecidableEq

/-- The message for the user. -/
def CoefficientError.message : CoefficientError → String
  | divisionByZero => "division by zero"
  | symbolicDivisor s => "cannot divide by symbolic value '" ++ s.text ++ "'"
  | unresolved params =>
    "coefficient depends on unresolved parameters: " ++ ", ".intercalate params

/-- A number or a polynomial in parameters. -/
inductive Coefficient where
  | num (n : Number)
  | sym (s : Symbolic)
  deriving DecidableEq

namespace Coefficient

instance : Inhabited Coefficient := ⟨.num 0⟩

instance (n : Nat) : OfNat Coefficient n := ⟨.num (.exact n)⟩

/-- A parameter with coefficient one. -/
def param (name : String) : Coefficient := .sym (.param name)

/-- A polynomial in parameters as a coefficient; one without parameters becomes a number. -/
def ofSymbolic (s : Symbolic) : Coefficient :=
  if s.isConstant then .num s.constantPart else .sym s

/-- The coefficient as a polynomial in parameters. -/
def toSymbolic : Coefficient → Symbolic
  | num n => .const n
  | sym s => s

/-- Whether all exponents can be kept. -/
def fits : Coefficient → Bool
  | num _ => true
  | sym s => s.fits

def isZero : Coefficient → Bool
  | num n => n.isZero
  | sym s => s.isZero

def isOne : Coefficient → Bool
  | num n => n.isOne
  | sym _ => false

def isNumeric : Coefficient → Bool
  | num _ => true
  | sym _ => false

/-- The number, if no parameter is involved. -/
def asNumber? : Coefficient → Option Number
  | num n => some n
  | sym _ => none

/-- The number, or the list of the parameters that stand in the way. -/
def toNumber : Coefficient → Except CoefficientError Number
  | num n => .ok n
  | sym s => .error (.unresolved s.params)

/-- The parameters that the coefficient depends on, in increasing order. -/
def params : Coefficient → List String
  | num _ => []
  | sym s => s.params

/-- The magnitude of a number. -/
def abs (c : Coefficient) : Except CoefficientError Number :=
  c.toNumber.map Number.abs

/-! ## Arithmetic -/

protected def add : Coefficient → Coefficient → Coefficient
  | .num x, .num y => .num (x + y)
  | a, b => ofSymbolic (a.toSymbolic + b.toSymbolic)

protected def sub : Coefficient → Coefficient → Coefficient
  | .num x, .num y => .num (x - y)
  | a, b => ofSymbolic (a.toSymbolic - b.toSymbolic)

protected def mul : Coefficient → Coefficient → Coefficient
  | .num x, .num y => .num (x * y)
  | .sym s, .num k => ofSymbolic (s.scale k)
  | .num k, .sym s => ofSymbolic (s.scale k)
  | .sym s, .sym t => ofSymbolic (s * t)

protected def neg : Coefficient → Coefficient
  | num n => num (-n)
  | sym s => sym (-s)

instance : Add Coefficient := ⟨Coefficient.add⟩

instance : Sub Coefficient := ⟨Coefficient.sub⟩

instance : Mul Coefficient := ⟨Coefficient.mul⟩

instance : Neg Coefficient := ⟨Coefficient.neg⟩

/-- A power with an exponent of unsigned 32 bits. -/
def pow (c : Coefficient) (n : Nat) : Coefficient :=
  match c with
  | num a => num (a.pow n)
  | sym s => ofSymbolic (s.pow n)

/-- The divisor as a number. -/
def divisor : Coefficient → Except CoefficientError Number
  | num n => .ok n
  | sym s => .error (.symbolicDivisor s)

/-- A result of division, which is missing only where the divisor is zero. -/
def ofQuotient {α : Type} : Option α → Except CoefficientError α
  | some a => .ok a
  | none => .error .divisionByZero

/-- The quotient by a number other than zero. A polynomial is multiplied by the reciprocal. -/
def div (c d : Coefficient) : Except CoefficientError Coefficient := do
  let k ← d.divisor
  match c with
  | num n => return num (← ofQuotient (n.div? k))
  | sym s => return ofSymbolic (s.scale (← ofQuotient k.recip?))

/-- The floor of the quotient of two numbers. -/
def floorDiv (c d : Coefficient) : Except CoefficientError Coefficient := do
  let k ← d.divisor
  let n ← c.toNumber
  return num (← ofQuotient (n.floorDiv? k))

/-- Rounds every number in the coefficient to decimal places. -/
def roundTo (places : Nat) : Coefficient → Coefficient
  | num n => num (n.roundTo places)
  | sym s => ofSymbolic (s.mapCoefficients (·.roundTo places))

/-! ## Substitution -/

/-- What a parameter stands for under a substitution; a parameter without a value stays. -/
def substituted (values : Table String Coefficient) (name : String) : Symbolic :=
  match values.get? name with
  | some v => v.toSymbolic
  | none => .param name

/-- Replaces all parameters that have a value, at once. -/
def substitute (values : Table String Coefficient) : Coefficient → Coefficient
  | num n => num n
  | sym s => ofSymbolic <| s.terms.foldl (fun out t =>
      out + t.1.foldl (fun product p =>
        product * (substituted values p.param).pow p.exponent) (.const t.2)) .zero

/-! ## Comparison and text -/

/-- Equality of values: numbers by value, polynomials term by term. -/
def valueEq : Coefficient → Coefficient → Bool
  | num a, num b => a.valueEq b
  | sym s, sym t => s.valueEq t
  | _, _ => false

/-- The text of a coefficient; a polynomial of several terms stands in parentheses. -/
def text : Coefficient → String
  | num n => n.text
  | sym s => if 1 < s.terms.length then "(" ++ s.text ++ ")" else s.text

end Coefficient

end PseudoBoolean
