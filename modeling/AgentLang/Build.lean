import AgentLang.Code.Listing
import AgentLang.Compile
import AgentLang.FileAccess
import AgentLang.Path

/-!
# Building

`build` compiles a source and writes the listing. A build that fails removes
what is at the output path, so that a listing of an earlier build never
outlives it; that nothing is there to be removed is no failure.
-/

namespace AgentLang

/-- Why a build wrote no listing. -/
inductive BuildError where
  | compile (error : CompileError)
  | file (error : FileError)
deriving Repr, DecidableEq

def BuildError.message : BuildError → String
  | compile error => error.message
  | file error => "I/O error: " ++ error.message

/-- What to report, in order. -/
def BuildError.diagnostics : BuildError → List Diagnostic
  | compile error => error.diagnostics
  | file _ => []

/-- Where the listing of an input goes if nothing else is asked for. -/
def defaultOutput (input : String) : String := Path.withExtension input "lst"

/-- Compiles a source and writes its listing to `output`. -/
def build {m : Type → Type} [Monad m] [FileAccess m] (source output : String)
    (options : CompileOptions) : m (Except BuildError AgentType) := do
  match compile source options with
  | .ok type =>
    match ← FileAccess.write output type.listing.toUTF8 with
    | .ok () => return .ok type
    | .error e => return .error (.file e)
  | .error error =>
    match ← FileAccess.remove output with
    | .ok () => return .error (.compile error)
    | .error .notFound => return .error (.compile error)
    | .error e => return .error (.file e)

end AgentLang
