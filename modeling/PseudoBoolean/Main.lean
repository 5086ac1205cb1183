import PseudoBoolean.Command.Run

/-! # The program

Runs the command of the given words on the files of the system.
-/

namespace PseudoBoolean

/-- The reason for which the system could not give or take a file. -/
def FileError.ofSystem : IO.Error → FileError
  | .noFileOrDirectory .. => .missing
  | .inappropriateType _ code details => ofCode code details
  | .invalidArgument _ code details => ofCode code details
  | e => .other (toString e)
where
  /-- The reason of a code of the system. -/
  ofCode (code : UInt32) (details : String) : FileError :=
    if code = 20 then .notDirectory
    else if code = 21 then .isDirectory
    else if code = 36 then .nameTooLong
    else .other details

instance : FileAccess IO where
  read path := do
    try return .ok (← IO.FS.readFile path)
    catch e => return .error (.ofSystem e)
  write path text := do
    try
      IO.FS.writeFile path text
      return .ok ()
    catch e => return .error (.ofSystem e)

end PseudoBoolean

open PseudoBoolean in
/-- Prints the answer, or reports on the failure. -/
def main (words : List String) : IO UInt32 := do
  let outcome ← Command.runWords words
  IO.print outcome.output
  match outcome with
  | .done _ => pure ()
  | .failed cause => IO.eprintln cause.report
  | .usage => IO.eprint helpText
  return outcome.code.toUInt32
