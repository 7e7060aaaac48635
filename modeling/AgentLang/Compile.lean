import AgentLang.Generator
import AgentLang.Parser.Unit

/-!
# Compiling a unit

`compile` parses a source and generates its agent type. A source with syntax
errors is not generated, and one with semantic errors yields no type, so a
result is always the type of a flawless agent.
-/

namespace AgentLang

/-- A syntax or semantic error, as it is reported. -/
structure Diagnostic where
  code : String
  title : String
  message : String
  span : Span
deriving Repr, DecidableEq

def SyntaxError.diagnostic (e : SyntaxError) : Diagnostic :=
  ⟨e.code, e.title, e.message, e.span⟩

def SemanticError.diagnostic (e : SemanticError) : Diagnostic :=
  ⟨e.code, e.title, e.message, e.span⟩

/-- Why a unit yields no agent type. -/
inductive CompileError where
  | malformed (errors : List SyntaxError)
  | semantic (errors : List SemanticError)
  | internal (error : InternalError)
deriving Repr, DecidableEq

def CompileError.message : CompileError → String
  | malformed _ => "errors encountered during syntactic analysis, aborting"
  | semantic _ => "errors encountered during semantic analysis, no output written"
  | internal error => error.message

/-- What to report, in order. -/
def CompileError.diagnostics : CompileError → List Diagnostic
  | malformed errors => errors.map SyntaxError.diagnostic
  | semantic errors => errors.map SemanticError.diagnostic
  | internal _ => []

/-- How a unit is compiled. -/
structure CompileOptions where
  /-- What the unit is called in reports. -/
  unitName : String := "<input>"
  /-- Is the number of arguments of an invocation checked? -/
  checkArity : Bool := true
deriving Repr, DecidableEq

/-- The agent type of a source. -/
def compile (source : String) (options : CompileOptions) :
    Except CompileError AgentType :=
  match parse source with
  | (agent, []) =>
    match generate options.checkArity agent with
    | .error e => .error (.internal e)
    | .ok (type, []) => .ok type
    | .ok (_, errors) => .error (.semantic errors)
  | (_, errors) => .error (.malformed errors)

end AgentLang
