import PseudoBoolean.Error
import PseudoBoolean.Files

/-! # Reports of failed commands

A report says what was being done when a command failed, and the cause where that is something else.
-/

namespace PseudoBoolean

/-- Why a command has failed. -/
inductive Failure where
  /-- The document could not be read. -/
  | reading (path : String) (cause : FileError)
  /-- The document does not describe a model. -/
  | loading (path : String) (cause : Error)
  /-- Parameters have no value. -/
  | unresolved (names : List String)
  /-- There are more variables than the settings admit for a search. -/
  | tooManyVariables (count limit : Nat)
  /-- The model has no such form or no solution. -/
  | computing (cause : Error)
  /-- The settings could not be written. -/
  | writing (path : String) (cause : FileError)
  deriving DecidableEq

namespace Failure

/-- What was being done, or what is wrong. -/
def headline : Failure → String
  | reading path _ => "reading " ++ path
  | loading path _ => "loading " ++ path
  | unresolved names =>
    "unresolved parameters: " ++ ", ".intercalate names ++ " (use --set NAME=VALUE)"
  | tooManyVariables count limit =>
    "model has " ++ toString count ++ " variables, more than the configured limit of " ++
      toString limit
  | computing cause => cause.message
  | writing path _ => "writing " ++ path

/-- The cause, where the headline does not give it. -/
def cause? : Failure → Option String
  | reading _ cause => some cause.message
  | loading _ cause => some cause.message
  | writing _ cause => some cause.message
  | _ => none

/-- A text with every line set in. -/
def indented (s : String) : String :=
  "    " ++ "\n    ".intercalate (s.splitOn "\n")

/-- The report for the user. -/
def report (failure : Failure) : String :=
  "Error: " ++ failure.headline ++
    failure.cause?.elim "" fun cause => "\n\nCaused by:\n" ++ indented cause

end Failure

end PseudoBoolean
