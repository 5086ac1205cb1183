import PseudoBoolean.Label
import PseudoBoolean.Polynomial.Conversion

/-! # Slack

A constraint `q ≤ 0` holds exactly if `q + s = 0` for some slack `s ≥ 0`. The slack is a sum of weighted
bits, whose weights are chosen such that the sums are the whole numbers from zero to the greatest slack
that is needed.
-/

namespace PseudoBoolean.Slack

/-- A word shifted by a distance that must be below the width, if no bit is lost. -/
def shiftLeft (n distance : Nat) : Except Error Nat :=
  if distance < 64 then Error.word (n <<< distance : Nat) else .error (.stopped .word)

/-- The number of zeros in front of the digits of a word. -/
def leadingZeros (n : Nat) : Nat :=
  if n = 0 then 64 else 63 - n.log2

/-- The number of words of 64 bits that a list can have: it takes less than `2 ^ 63` bytes. -/
def capacity : Nat := 0x7fffffffffffffff / 8

/-- Weights whose sums are the numbers from zero to `range`: powers of two and the rest that is left to
the sum, or as many ones as needed. All results are words, and the ones must fit into memory. -/
def weights (range : Nat) (logarithmic : Bool) : Except Error (List Nat) :=
  if range = 0 then .ok []
  else if logarithmic then do
    let count ← Error.word (63 - leadingZeros (← Error.word (range + 1)))
    let powers ← (List.range count).mapM (shiftLeft 1)
    let covered ← Error.word ((← shiftLeft 1 count) - 1)
    let rest ← Error.word (range - covered)
    return powers ++ if rest = 0 then [] else [rest]
  else if range ≤ capacity then .ok (List.replicate range 1)
  else .error (.stopped .memory)

/-- The slack bits for a list of weights: labels from `first` on, each with its weight. -/
def bits (first : UInt32) (weights : List Nat) : List (Label × Nat) :=
  weights.zipIdx.map fun (w, i) => (.ancilla (first + .ofNat i), w)

/-- A bit as a polynomial over a domain that is 0 or 1. -/
def bit (d : Domain) (label : Label) : Polynomial d Label :=
  (Polynomial.var label : Polynomial .binary Label).toDomain d

/-- The sum of weighted bits. -/
def polynomial (d : Domain) (bits : List (Label × Nat)) : Polynomial d Label :=
  bits.foldl (fun p (label, w) => p + (bit d label).scale (.num (.ofInt w))) .empty

/-- Records bits as slack of a constraint. -/
def record (constraint : Nat) (bits : List (Label × Nat)) (a : AncillaTable Label) :
    AncillaTable Label :=
  bits.foldl (fun a (label, w) => a.insert label (.slack constraint (.ofInt w))) a

end PseudoBoolean.Slack
