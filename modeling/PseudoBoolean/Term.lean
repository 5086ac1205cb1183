import PseudoBoolean.Domain
import PseudoBoolean.Table

/-! # Variables and terms

What the operations need to know of a type of variables is a linear order, in which terms and tables are
kept, and a text for messages. Labels of a model and the numbered variables of a canonical form are the two
instances in use.

A term is a product of distinct variables, kept in increasing order; the empty term is the constant one.
A product with repetitions has a normal form in each domain. A binary variable satisfies `x * x = x`, so
the normal form holds every variable that occurs. A spin variable satisfies `s * s = 1`, so it holds
those that occur an odd number of times. Both are computed by adding one factor at a time.
-/

namespace PseudoBoolean

/-- A type of variables. -/
class Variable (V : Type) extends Ord V, BEq V where
  [lawfulBEq : LawfulBEq V]
  [transOrd : Std.TransOrd V]
  [lawfulEqOrd : Std.LawfulEqOrd V]
  /-- The text of a variable in messages. -/
  text : V → String

attribute [instance] Variable.lawfulBEq Variable.transOrd Variable.lawfulEqOrd

/-- A product of variables in increasing order. -/
abbrev Term (V : Type) : Type := List V

namespace Term

variable {V : Type} [Variable V]

/-- The product with a binary variable, which changes nothing if the variable is there already. -/
def insert (v : V) : Term V → Term V
  | [] => [v]
  | w :: t =>
    match compare v w with
    | .lt => v :: w :: t
    | .eq => w :: t
    | .gt => w :: insert v t

/-- The product with a spin variable, which cancels the variable if it is there already. -/
def toggle (v : V) : Term V → Term V
  | [] => [v]
  | w :: t =>
    match compare v w with
    | .lt => v :: w :: t
    | .eq => t
    | .gt => w :: toggle v t

/-- The normal form of a product in a domain. -/
def normalize (d : Domain) (vars : List V) : Term V :=
  match d with
  | .binary => vars.foldl (fun t v => t.insert v) []
  | .spin => vars.foldl (fun t v => t.toggle v) []

omit [Variable V] in
/-- The subsets of a term, in the order of the bit masks that select them: the first variable is the
lowest bit. -/
def subsets : Term V → List (Term V)
  | [] => [[]]
  | v :: t => (subsets t).flatMap fun s => [s, v :: s]

/-- The text of a term: its variables in parentheses. -/
def text (t : Term V) : String :=
  "(" ++ ", ".intercalate (t.map Variable.text) ++ ")"

end Term

end PseudoBoolean
