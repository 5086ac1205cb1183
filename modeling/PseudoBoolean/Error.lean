import PseudoBoolean.Coefficient
import PseudoBoolean.Domain

/-! # What can go wrong

The causes for which an operation has no result, each with its message. Variables and terms appear in
them by their text.
-/

namespace PseudoBoolean

/-- An input that does not have the required form. -/
inductive Malformed where
  /-- An index beyond the number of variables in a mapping. -/
  | indexOutOfRange (index count : Nat)
  /-- Two variables with the same index in a mapping. -/
  | indexRepeated (index : Nat)
  /-- Two indices for the same variable in a mapping. -/
  | labelRepeated (label : String)
  /-- A mapping of other variables than those of the polynomial. -/
  | mappingIncomplete
  /-- An assignment that leaves out a variable. -/
  | valueMissing (variableText : String)
  /-- An assigned value that the domain does not have. -/
  | valueOutside (value : Int) (variableText : String) (domain : Domain)
  /-- A value of a numbered solution that the domain does not have. -/
  | indexValueOutside (value : Int) (index : Nat) (domain : Domain)
  /-- A degree bound that no reduction can reach. -/
  | targetTooSmall (target : Nat)
  /-- Too many variables for a search over all assignments. -/
  | tooManyVariables (limit count : Nat)
  /-- A variable that a search does not range over. -/
  | notEnumerated (variableText : String)
  /-- A slack range that is no whole number of the supported size. -/
  | slackRange (range : Number)
  /-- A number that has no digits in base two. -/
  | notNatural (value : Number)
  /-- A number with more digits than there is room for. -/
  | tooWide (value : Number) (needed width : Nat)
  /-- A digit or value that does not belong to the domain. -/
  | notInDomain (value : Int) (domain : Domain)
  /-- A matrix for a form without variables. -/
  | noVariables
  /-- A matrix for a form with a constant. -/
  | offset (value : Coefficient)
  /-- A matrix with a row of another length than the number of rows. -/
  | notSquare (row length expected : Nat)
  /-- A document that cannot be read. -/
  | document
  deriving DecidableEq

/-- The message for the user. -/
def Malformed.message : Malformed → String
  | indexOutOfRange i n =>
    "index " ++ toString i ++ " out of range for " ++ toString n ++ " variables"
  | indexRepeated i => "index " ++ toString i ++ " assigned twice in mapping"
  | labelRepeated l => "label " ++ l ++ " mapped twice"
  | mappingIncomplete => "mapping must cover exactly the variables of the polynomial"
  | valueMissing v => "assignment has no value for " ++ v
  | valueOutside x v d =>
    "value " ++ toString x ++ " of " ++ v ++ " is outside the " ++ d.text ++ " domain"
  | indexValueOutside x i d =>
    "value " ++ toString x ++ " of index " ++ toString i ++ " is not " ++ d.text
  | targetTooSmall n => "target degree must be at least 2, got " ++ toString n
  | tooManyVariables limit n =>
    "brute force supports at most " ++ toString limit ++ " variables, got " ++ toString n
  | notEnumerated v => "variable " ++ v ++ " is not enumerated"
  | slackRange r => "slack range " ++ r.text ++ " is not representable"
  | notNatural x => x.text ++ " is not a non-negative integer"
  | tooWide x needed width =>
    x.text ++ " needs " ++ toString needed ++ " bits, more than the width " ++ toString width
  | notInDomain x d => toString x ++ " is not a " ++ d.text ++ " value"
  | noVariables => "QUBO has no variables"
  | offset c => "QUBO has a nonzero offset " ++ c.text
  | notSquare row length n =>
    "matrix is not square: row " ++ toString row ++ " has " ++ toString length ++
      " entries, expected " ++ toString n
  | document => "the document does not have the form of a model"

/-- A limit of the machine. An operation that goes beyond it does not return: the program stops. -/
inductive Limit where
  /-- A number that is no unsigned word of 64 bits. -/
  | word
  /-- A list of more bytes than memory can hold. -/
  | memory
  deriving DecidableEq

/-- The message with which the program stops. -/
def Limit.message : Limit → String
  | word => "arithmetic overflow"
  | memory => "capacity overflow"

/-- Why an operation on polynomials or models has no result. -/
inductive Error where
  /-- A term of a document that is no list of labels, as it is written. -/
  | invalidKey (key : String)
  /-- A term with more variables than allowed. -/
  | degreeExceeded (term : String) (degree limit : Nat)
  /-- An input of the wrong form. -/
  | malformed (cause : Malformed)
  /-- A failure in the arithmetic of coefficients. -/
  | coefficient (cause : CoefficientError)
  /-- A limit of the machine, at which the program has stopped. -/
  | stopped (limit : Limit)
  deriving DecidableEq

/-- The message for the user. -/
def Error.message : Error → String
  | invalidKey key => "invalid term key: " ++ key
  | degreeExceeded term degree limit =>
    "term " ++ term ++ " has degree " ++ toString degree ++ ", exceeding the limit of " ++
      toString limit
  | malformed cause => "malformed input: " ++ cause.message
  | coefficient cause => cause.message
  | stopped limit => limit.message

/-- A number, if it is an unsigned word of 64 bits. -/
def Error.word (n : Int) : Except Error Nat :=
  if 0 ≤ n ∧ n < UInt64.size then .ok n.toNat else .error (.stopped .word)

theorem Error.word_natCast {n : Nat} (h : n < UInt64.size) : Error.word n = .ok n :=
  if_pos (by omega)

theorem Error.word_add_one (n : Nat) :
    Error.word (n + 1) = if n + 1 < UInt64.size then .ok (n + 1) else .error (.stopped .word) := by
  rw [word]
  split
  · rw [if_pos (by omega)]
    rfl
  · rw [if_neg (by omega)]

/-- A result of coefficient arithmetic, with its error as an error of the whole operation. -/
def Error.ofCoefficient {α : Type} (r : Except CoefficientError α) : Except Error α :=
  r.mapError .coefficient

end PseudoBoolean
