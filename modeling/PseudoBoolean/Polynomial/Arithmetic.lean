import PseudoBoolean.Polynomial.Basic

/-! # Arithmetic of polynomials

Sums, products and powers, and the operations that act on the coefficients alone. The left operand's
variables keep their numbers; those that only the right operand has are numbered after them.
-/

namespace PseudoBoolean.Polynomial

variable {d : Domain} {V : Type} [Variable V]

/-! ## Coefficient by coefficient -/

/-- Applies `f` to every coefficient and drops the terms whose coefficient becomes zero. -/
def mapCoefficients (f : Coefficient → Coefficient) (p : Polynomial d V) : Polynomial d V :=
  p.terms.foldl (fun r t => r.accumulate t.1 (f t.2)) p.cleared

/-- Rounds every coefficient to decimal places. -/
def round (p : Polynomial d V) (places : Nat) : Polynomial d V :=
  p.mapCoefficients (·.roundTo places)

/-- Gives parameters their values, all at once. -/
def substitute (p : Polynomial d V) (values : Table String Coefficient) : Polynomial d V :=
  p.mapCoefficients (·.substitute values)

/-- The multiple by a coefficient. -/
def scale (p : Polynomial d V) (k : Coefficient) : Polynomial d V :=
  p.mapCoefficients (· * k)

omit [Variable V] in
/-- Applies an operation that may fail to every coefficient, in the order of the terms, and drops the
terms whose coefficient becomes zero. -/
def tryMapCoefficients (f : Coefficient → Except CoefficientError Coefficient)
    (p : Polynomial d V) : Except Error (Polynomial d V) := do
  let terms ← p.terms.mapM fun t => do return (t.1, ← Error.ofCoefficient (f t.2))
  return { p with terms := terms.filter fun t => !t.2.isZero }

omit [Variable V] in
/-- Divides every coefficient by a number other than zero. -/
def div (p : Polynomial d V) (k : Coefficient) : Except Error (Polynomial d V) :=
  if k.isZero then .error (.coefficient .divisionByZero)
  else p.tryMapCoefficients (·.div k)

omit [Variable V] in
/-- Divides every coefficient, which must be a number, and takes the floor of the quotient. -/
def floorDiv (p : Polynomial d V) (k : Coefficient) : Except Error (Polynomial d V) :=
  if k.isZero then .error (.coefficient .divisionByZero)
  else p.tryMapCoefficients (·.floorDiv k)

omit [Variable V] in
/-- The terms with their coefficients as numbers, or the parameters of the first that is none. -/
def numericTerms (p : Polynomial d V) : Except Error (Table (Term V) Number) :=
  p.terms.mapM fun t => do return (t.1, ← Error.ofCoefficient t.2.toNumber)

omit [Variable V] in
/-- The division in place. The quotients of all coefficients are found before they are put into their
places, and the polynomial that is left behind is given in any case. -/
def divAssign (p : Polynomial d V) (k : Coefficient) : Polynomial d V × Except Error Unit :=
  match p.div k with
  | .ok q => (q, .ok ())
  | .error e => (p, .error e)

omit [Variable V] in
/-- Divides by the largest magnitude of a coefficient, in place. -/
def normalize (p : Polynomial d V) : Polynomial d V × Except Error Unit :=
  match p.numericTerms with
  | .error e => (p, .error e)
  | .ok terms =>
    match Number.maxAbs (terms.map (·.2)) with
    | none => (p, .ok ())
    | some largest => p.divAssign (.num largest)

/-! ## Sums and products -/

protected def neg (p : Polynomial d V) : Polynomial d V :=
  p.mapCoefficients (- ·)

protected def add (p q : Polynomial d V) : Polynomial d V :=
  q.terms.foldl (fun r t => r.accumulate t.1 t.2) (p.adopt q)

protected def sub (p q : Polynomial d V) : Polynomial d V :=
  q.terms.foldl (fun r t => r.accumulate t.1 (-t.2)) (p.adopt q)

protected def mul (p q : Polynomial d V) : Polynomial d V :=
  p.terms.foldl (fun r s =>
    q.terms.foldl (fun r t => r.accumulate (Term.normalize d (s.1 ++ t.1)) (s.2 * t.2)) r)
    (p.cleared.adopt q)

instance : Neg (Polynomial d V) := ⟨Polynomial.neg⟩

instance : Add (Polynomial d V) := ⟨Polynomial.add⟩

instance : Sub (Polynomial d V) := ⟨Polynomial.sub⟩

instance : Mul (Polynomial d V) := ⟨Polynomial.mul⟩

/-- The difference `p - c` with a constant. -/
def subConstant (p : Polynomial d V) (c : Coefficient) : Polynomial d V :=
  p.addConstant (-c)

/-- The difference `c - p` from a constant. -/
def constantSub (c : Coefficient) (p : Polynomial d V) : Polynomial d V :=
  (-p).addConstant c

/-- The loop of `pow`: `acc` times the `n`-th power of `base`, one binary digit of `n` at a time. -/
def powLoop (acc base : Polynomial d V) (n : Nat) : Polynomial d V :=
  if n = 0 then acc
  else
    let acc := if n % 2 = 1 then acc * base else acc
    if n / 2 = 0 then acc else powLoop acc (base * base) (n / 2)
termination_by n
decreasing_by omega

/-- A power, by repeated squaring. The power zero is the constant one. -/
def pow (p : Polynomial d V) (n : Nat) : Polynomial d V :=
  powLoop (p.cleared.addConstant 1) p n

end PseudoBoolean.Polynomial
