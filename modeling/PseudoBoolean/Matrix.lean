import PseudoBoolean.Quadratic

/-! # Matrices of quadratic forms

A QUBO without a constant is `x * M * x` for a matrix `M`: the coefficients of single variables stand on
the diagonal, and a coupling stands above it, or half of it on either side.
-/

namespace PseudoBoolean

/-- A matrix as the list of its rows. -/
abbrev Matrix (α : Type) : Type := List (List α)

namespace Qubo

/-- Sets an entry of a matrix. -/
def setEntry {α : Type} (m : Matrix α) (i j : Nat) (a : α) : Matrix α :=
  m.modify i fun row => row.set j a

/-- Writes a term into a matrix. -/
def placeTerm (symmetric : Bool) (m : Matrix Number) (t : Term Nat) (c : Number) : Matrix Number :=
  match t with
  | [i] => setEntry m i i c
  | [i, j] =>
    if symmetric then
      let half := c * .exact (1 / 2)
      setEntry (setEntry m i j half) j i half
    else setEntry m i j c
  | _ => m

/-- The matrix of a QUBO that has variables and no constant: upper triangular, or symmetric with every
coupling split in half. The number of its rows must be a word, and at most `capacity`: the number of rows of
the largest square matrix that memory holds. -/
def toMatrix (q : Qubo Nat) (symmetric : Bool) (capacity : Nat) : Except Error (Matrix Number) := do
  let p := q.polynomial
  match p.vars.getLast? with
  | none => .error (.malformed .noVariables)
  | some largest =>
    if !p.offset.isZero then .error (.malformed (.offset p.offset))
    let n ← Error.word (largest + 1)
    if capacity < n then .error (.stopped .memory)
    let zero := List.replicate n (List.replicate n (0 : Number))
    return (← p.numericTerms).foldl (fun m (t, c) => placeTerm symmetric m t c) zero

/-- The QUBO `x * M * x` of a square matrix; entries on either side of the diagonal add up. -/
def ofMatrix (m : Matrix Coefficient) : Except Error (Qubo Nat) :=
  let n := m.length
  match m.zipIdx.find? fun (row, _) => row.length != n with
  | some (row, i) => .error (.malformed (.notSquare i row.length n))
  | none => Quadratic.ofPolynomial <| m.zipIdx.foldl (fun p (row, i) =>
      row.zipIdx.foldl (fun p (c, j) => p.addTerm [i, j] c) p) Polynomial.empty

end Qubo

end PseudoBoolean
