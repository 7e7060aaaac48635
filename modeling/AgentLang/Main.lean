import AgentLang.Command

/-!
# The command line program

Runs a command on the files of the system.
-/

namespace AgentLang

/-- Is the code of a system error the given number, under either sign? -/
def isErrorCode (code number : UInt32) : Bool := code == number || code == 0 - number

/-- What an error of the system means for a file operation. -/
def FileError.ofSystem (e : IO.Error) : FileError :=
  match e with
  | .noFileOrDirectory .. => .notFound
  | .permissionDenied _ code _ =>
    if isErrorCode code 13 then .permissionDenied else .other (toString e)
  | .inappropriateType _ code _ =>
    if isErrorCode code 21 then .isDirectory
    else if isErrorCode code 20 then .notDirectory
    else .other (toString e)
  | .resourceExhausted _ code _ | .invalidArgument _ code _ =>
    if isErrorCode code 36 then .nameTooLong
    else if isErrorCode code 28 then .noSpace
    else .other (toString e)
  | _ => .other (toString e)

/-- Runs a file operation of the system. -/
def attempt {α : Type} (operation : IO α) : IO (Except FileError α) := do
  match ← operation.toBaseIO with
  | .ok value => return .ok value
  | .error e => return .error (.ofSystem e)

/-- Removes a file. The system would take an empty directory as well, so
that case is refused first. -/
def removeFile (path : String) : IO (Except FileError Unit) := do
  match ← attempt (IO.FS.readBinFile path) with
  | .error .isDirectory => return .error .isDirectory
  | _ => attempt (IO.FS.removeFile path)

instance : FileAccess IO where
  read path := attempt (IO.FS.readBinFile path)
  write path bytes := attempt (IO.FS.writeBinFile path bytes)
  remove path := removeFile path

end AgentLang

/-- Runs the command and tells its outcome. -/
def main (args : List String) : IO UInt32 := do
  let outcome ← AgentLang.runCommand (m := IO) args
  (← IO.getStdout).putStr outcome.stdout
  (← IO.getStderr).putStr outcome.stderr
  return outcome.exit.toUInt32
