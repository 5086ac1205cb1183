import PseudoBoolean.Polynomial.Arithmetic

/-! # Logic gates

A proposition is a binary polynomial with the value 1 where it holds and 0 where it does not. A gate
takes propositions to a proposition, so gates can be nested. Without operands `and`, `or` and `xor` are
the constant 1, and their negations the constant 0.
-/

namespace PseudoBoolean.Gate

variable {V : Type} [Variable V]

/-- A binary polynomial that takes the values 0 and 1. -/
abbrev Proposition (V : Type) : Type := Polynomial .binary V

/-- Holds where a variable is 1. -/
def literal (v : V) : Proposition V :=
  .var v

/-- Holds where `p` does not. -/
def not (p : Proposition V) : Proposition V :=
  Polynomial.constantSub 1 p

/-- Holds where all operands do. -/
def and (ps : List (Proposition V)) : Proposition V :=
  ps.foldl (· * ·) (.const 1)

/-- Holds where some operand does not. -/
def nand (ps : List (Proposition V)) : Proposition V :=
  not (and ps)

/-- Holds where some operand does. -/
def or (ps : List (Proposition V)) : Proposition V :=
  if ps.isEmpty then .const 1
  else not (ps.foldl (fun all p => all * not p) (.const 1))

/-- Holds where no operand does. -/
def nor (ps : List (Proposition V)) : Proposition V :=
  not (or ps)

/-- Holds where exactly one of two operands does. -/
def xorPair (p q : Proposition V) : Proposition V :=
  p + q - (p * q).scale 2

/-- Holds where an odd number of operands does. -/
def xor : List (Proposition V) → Proposition V
  | [] => .const 1
  | p :: ps => ps.foldl xorPair p

/-- Holds where an even number of operands does. -/
def xnor (ps : List (Proposition V)) : Proposition V :=
  not (xor ps)

end PseudoBoolean.Gate
