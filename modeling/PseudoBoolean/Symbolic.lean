import PseudoBoolean.Number
import PseudoBoolean.Table

/-! # Polynomials in parameters

A symbolic value is a polynomial in named parameters with numbers as coefficients. Monomials are lists
of parameter powers in increasing order of the names, in which no exponent is zero. The polynomial is a
table from monomials to coefficients in which no coefficient is zero. So equal polynomials have equal
tables.

An exponent is kept in a word of 32 bits. The operations are given for exponents of any size, and `fits`
tells whether a result can be kept. With checks for overflow the program stops at one that does not fit;
without them the exponent wraps around and the result is another one.
-/

namespace PseudoBoolean

/-- A parameter with its exponent. -/
structure Power where
  param : String
  exponent : Nat
  deriving DecidableEq, Repr, Ord

/-- A product of parameter powers, in increasing order of the names. The empty product is one. -/
abbrev Monomial : Type := List Power

namespace Monomial

/-- The product with one more power; the exponents of a parameter that is already there add up. -/
def mulPower (p : Power) : Monomial → Monomial
  | [] => [p]
  | q :: m =>
    match compare p.param q.param with
    | .lt => p :: q :: m
    | .eq => ⟨q.param, q.exponent + p.exponent⟩ :: m
    | .gt => q :: mulPower p m

/-- The product of two monomials. -/
def mul (a b : Monomial) : Monomial :=
  b.foldl (fun m p => mulPower p m) a

/-- The product of powers in any order. A power with exponent zero is one and leaves no trace. -/
def ofPowers (powers : List Power) : Monomial :=
  mul [] (powers.filter (0 < ·.exponent))

/-- The sum of the exponents. -/
def degree (m : Monomial) : Nat :=
  m.foldr (fun p n => p.exponent + n) 0

/-- The powers joined by `*`, an exponent of one left out. -/
def text (m : Monomial) : String :=
  "*".intercalate <| m.map fun p =>
    if p.exponent = 1 then p.param else p.param ++ "^" ++ toString p.exponent

end Monomial

/-- A polynomial in parameters. -/
structure Symbolic where
  terms : Table Monomial Number
  deriving DecidableEq

namespace Symbolic

/-- The polynomial without terms. -/
def zero : Symbolic := ⟨[]⟩

/-- Adds `c * m`. A coefficient that becomes zero takes its monomial out of the table. -/
def accumulate (s : Symbolic) (m : Monomial) (c : Number) : Symbolic :=
  if c.isZero then s
  else ⟨s.terms.alter m fun
    | none => some c
    | some old => let sum := old + c; if sum.isZero then none else some sum⟩

/-- The sum of a list of terms, like monomials combined. -/
def ofTerms (terms : List (Monomial × Number)) : Symbolic :=
  terms.foldl (fun s t => s.accumulate t.1 t.2) zero

/-- A constant polynomial. -/
def const (c : Number) : Symbolic :=
  zero.accumulate [] c

/-- The polynomial that is a single parameter. -/
def param (name : String) : Symbolic :=
  ⟨[([⟨name, 1⟩], 1)]⟩

/-- Whether every exponent is a word of 32 bits. -/
def fits (s : Symbolic) : Bool :=
  s.terms.all fun t => t.1.all fun p => p.exponent < UInt32.size

def isZero (s : Symbolic) : Bool :=
  s.terms.isEmpty

/-- Whether no parameter occurs. -/
def isConstant (s : Symbolic) : Bool :=
  s.terms.all fun t => t.1.isEmpty

/-- The coefficient of the empty monomial. -/
def constantPart (s : Symbolic) : Number :=
  (s.terms.get? []).getD 0

/-- The names of the parameters that occur, in increasing order. -/
def params (s : Symbolic) : List String :=
  sortedSet (s.terms.flatMap fun t => t.1.map (·.param))

/-- Applies `f` to every coefficient; terms whose coefficient becomes zero are dropped. -/
def mapCoefficients (f : Number → Number) (s : Symbolic) : Symbolic :=
  ofTerms (s.terms.mapValues f)

/-! ## Arithmetic -/

protected def neg (s : Symbolic) : Symbolic :=
  s.mapCoefficients (- ·)

protected def add (s t : Symbolic) : Symbolic :=
  t.terms.foldl (fun r u => r.accumulate u.1 u.2) s

protected def sub (s t : Symbolic) : Symbolic :=
  s.add t.neg

/-- The multiple by a number. -/
def scale (s : Symbolic) (k : Number) : Symbolic :=
  if k.isZero then zero else s.mapCoefficients (· * k)

protected def mul (s t : Symbolic) : Symbolic :=
  s.terms.foldl (fun r u =>
    t.terms.foldl (fun r v => r.accumulate (u.1.mul v.1) (u.2 * v.2)) r) zero

instance : Neg Symbolic := ⟨Symbolic.neg⟩

instance : Add Symbolic := ⟨Symbolic.add⟩

instance : Sub Symbolic := ⟨Symbolic.sub⟩

instance : Mul Symbolic := ⟨Symbolic.mul⟩

/-- The loop of `pow`: `acc` times the `n`-th power of `base`, one binary digit of `n` at a time. -/
def powLoop (acc base : Symbolic) (n : Nat) : Symbolic :=
  if n = 0 then acc
  else
    let acc := if n % 2 = 1 then acc * base else acc
    if n / 2 = 0 then acc else powLoop acc (base * base) (n / 2)
termination_by n
decreasing_by omega

/-- A power, by repeated squaring. -/
def pow (s : Symbolic) (n : Nat) : Symbolic :=
  if n = 1 then s else powLoop (const 1) s n

/-! ## Comparison and text -/

/-- Equality: the same monomials with coefficients of equal value. -/
def valueEq (s t : Symbolic) : Bool :=
  s.terms.length == t.terms.length &&
    (s.terms.zip t.terms).all fun (a, b) => a.1 == b.1 && a.2.valueEq b.2

/-- The terms in the order in which they are written: higher degrees first, and by monomial within a
degree. -/
def writtenOrder (s : Symbolic) : List (Monomial × Number) :=
  s.terms.mergeSort fun a b => b.1.degree ≤ a.1.degree

/-- A term without its sign: a magnitude of one is left out in front of a parameter. -/
def magnitudeText (m : Monomial) (magnitude : Number) : String :=
  if m.isEmpty then magnitude.text
  else if magnitude.isOne then m.text
  else magnitude.text ++ "*" ++ m.text

/-- The terms joined by their signs; the polynomial without terms is `0`. -/
def text (s : Symbolic) : String :=
  match s.writtenOrder with
  | [] => "0"
  | (m, c) :: rest =>
    rest.foldl
      (fun out (m, c) =>
        out ++ (if c.isNegative then " - " else " + ") ++ magnitudeText m c.abs)
      ((if c.isNegative then "-" else "") ++ magnitudeText m c.abs)

end Symbolic

end PseudoBoolean
