/-!
# Access to files

What the compiler asks of the files around it: to read a file, to write a
whole file (a new one, or in place of all that it held), and to remove a
file. A monad with these operations can run a build. `Volume` has them as a
pure model, `Disk` has them where they may be refused, the command line has
them on the files of the system.
-/

namespace AgentLang

/-- Why a file operation failed. -/
inductive FileError where
  | notFound
  | notDirectory
  | isDirectory
  | nameTooLong
  | permissionDenied
  | noSpace
  /-- The path holds a NUL character, which ends a path for the system. -/
  | nulInPath
  /-- The file was read, but it does not hold text. -/
  | notText
  | other (details : String)
deriving Repr, DecidableEq

def FileError.message : FileError → String
  | notFound => "No such file or directory (os error 2)"
  | notDirectory => "Not a directory (os error 20)"
  | isDirectory => "Is a directory (os error 21)"
  | nameTooLong => "File name too long (os error 36)"
  | permissionDenied => "Permission denied (os error 13)"
  | noSpace => "No space left on device (os error 28)"
  | nulInPath => "file name contained an unexpected NUL byte"
  | notText => "stream did not contain valid UTF-8"
  | other details => details

/-- File operations in a monad. -/
class FileAccess (m : Type → Type) where
  read : String → m (Except FileError ByteArray)
  write : String → ByteArray → m (Except FileError Unit)
  remove : String → m (Except FileError Unit)

/-- Reads a file that holds text. -/
def readText {m : Type → Type} [Monad m] [FileAccess m] (path : String) :
    m (Except FileError String) := do
  match ← FileAccess.read path with
  | .error e => return .error e
  | .ok bytes =>
    match String.fromUTF8? bytes with
    | some text => return .ok text
    | none => return .error .notText

end AgentLang
