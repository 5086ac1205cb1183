import PseudoBoolean.Polynomial.Evaluation

/-! # Digits in base two

Whole numbers as rows of values of either domain, the most significant first. A spin row has 1 for the
binary digit 0 and -1 for the binary digit 1.

Numbers and widths are not bounded here. The program keeps a digit in a byte, so no memory holds a row of a
width of `2 ^ 63` or more, and it stops instead of filling one up.
-/

namespace PseudoBoolean.Digits

/-- The binary digits of a positive number, the least significant first; zero has none. -/
def lowFirst (n : Nat) : List Bool :=
  if n = 0 then [] else (n % 2 == 1) :: lowFirst (n / 2)
termination_by n
decreasing_by omega

/-- The binary digits of a number, the least significant first; zero has one. -/
def binaryDigits (n : Nat) : List Bool :=
  if n = 0 then [false] else lowFirst n

/-- The digits of a non-negative whole number as values of a domain, the most significant first, filled
up to a width if one is given. -/
def ofNumber (d : Domain) (value : Number) (width : Option Nat) : Except Error (List Int) :=
  match value.toInt? with
  | some (.ofNat n) =>
    let digits := binaryDigits n
    let padded := match width with
      | none => digits
      | some w => digits ++ List.replicate (w - digits.length) false
    match width.filter (· < digits.length) with
    | some w => .error (.malformed (.tooWide value digits.length w))
    | none => .ok (padded.reverse.map d.ofBit)
  | _ => .error (.malformed (.notNatural value))

/-- The digit that a value of a domain stands for. -/
def digit (d : Domain) (x : Int) : Except Error Bool :=
  match d.toBit? x with
  | some b => .ok b
  | none => .error (.malformed (.notInDomain x d))

/-- The number that a row of values stands for. -/
def toNat (d : Domain) (row : List Int) : Except Error Nat :=
  row.foldlM (fun n x => do return 2 * n + (← digit d x).toNat) 0

/-- The corresponding value of another domain. -/
def convert (d target : Domain) (x : Int) : Except Error Int := do
  return target.ofBit (← digit d x)

/-- The corresponding values of another domain, for all variables of an assignment. -/
def convertAssignment {V : Type} (d target : Domain) (a : Assignment V) :
    Except Error (Assignment V) :=
  a.mapM fun (v, x) => do return (v, ← convert d target x)

end PseudoBoolean.Digits
