import AgentLang.Agent.Dump
import AgentLang.Build
import AgentLang.Command.Arguments

/-!
# Commands

What the compiler does for the arguments of its command line: it lexes,
parses, checks or builds one file and tells the outcome on its two output
channels. Exit codes are 0 for success, 1 for a file that cannot be read or
is not flawless, and 2 for arguments that make no sense.
-/

namespace AgentLang

/-- What a command leaves behind besides files. -/
structure Outcome where
  exit : Nat
  stdout : String
  stderr : String
deriving Repr, DecidableEq

/-- Text made of lines. -/
def textOfLines (lines : List String) : String := String.join (lines.map (· ++ "\n"))

/-- The lines that report a diagnostic of a unit. The message comes last and
is set off by blanks, so that no unit name can pass for a closing line. -/
def Diagnostic.report (d : Diagnostic) (unit : String) : List String :=
  ["[" ++ d.code ++ "] " ++ d.title,
   "  at " ++ unit ++ ":" ++ d.span.render,
   "  " ++ d.message]

/-- The outcome of a build or check that failed. -/
def BuildError.outcome (e : BuildError) (unit : String) : Outcome :=
  ⟨1, "", textOfLines (e.diagnostics.flatMap (·.report unit) ++ ["", e.message])⟩

/-- A token with its place. -/
def Token.row (t : Token) : String :=
  "  " ++ padLeft 4 ' ' (toString t.span.start.line.toNat) ++ ":" ++
    padRight 3 ' ' (toString t.span.start.column.toNat) ++ " " ++ t.kind.render

/-- The tokens of a source. Unrecognised ones are counted and make the
command fail. -/
def lexOutcome (source : String) : Outcome :=
  let tokens := (lex source).toList
  let rows := ("Tokens (" ++ toString tokens.length ++ "):") :: tokens.map Token.row
  let unknown := (tokens.filter (·.kind.isUnknown)).length
  if unknown = 0 then ⟨0, textOfLines rows, ""⟩
  else
    ⟨1, textOfLines (rows ++ ["", toString unknown ++ " unrecognised token(s)"]), ""⟩

def Param.render (p : Param) : String := p.name.name ++ ": " ++ p.type.name

def MemberKind.keyword : MemberKind → Keyword
  | plan => .plan
  | handler => .on

/-- An agent in outline: one line for itself, each belief and each member. -/
def Agent.outline (a : Agent) : List String :=
  ["agent " ++ a.name.name ++ "(" ++ commaSeparated (a.params.map Param.render) ++ ")"] ++
    a.beliefs.map (fun b =>
      "  bel " ++ b.name.name ++ "(" ++ commaSeparated (b.init.map Expr.render) ++ ")") ++
    a.members.map (fun m =>
      "  " ++ m.kind.keyword.text ++ " " ++ m.name.name ++ "/" ++ toString m.params.length ++
        " (" ++ toString m.body.length ++ " statements)")

/-- The agent of a source, in outline or in full. Syntax errors make the
command fail, but the agent is shown all the same. -/
def parseOutcome (source unit : String) (tree : Bool) : Outcome :=
  let (agent, errors) := parse source
  ⟨if errors.isEmpty then 0 else 1,
    textOfLines (if tree then agent.dump else agent.outline),
    textOfLines (errors.flatMap (·.diagnostic.report unit))⟩

/-- Whether a source compiles. -/
def checkOutcome (source file : String) (options : CompileOptions) : Outcome :=
  match compile source options with
  | .ok _ => ⟨0, "Check passed: " ++ file ++ "\n", ""⟩
  | .error e => (BuildError.compile e).outcome options.unitName

/-- The outcome of a build. -/
def buildOutcome (result : Except BuildError AgentType) (output : String)
    (options : CompileOptions) : Outcome :=
  match result with
  | .ok type => ⟨0, "Compiled agent " ++ type.name ++ " to " ++ output ++ "\n", ""⟩
  | .error e => e.outcome options.unitName

/-- The outcome of a file that cannot be read. -/
def FileError.outcome (e : FileError) (file : String) : Outcome :=
  ⟨1, "", "Error reading file '" ++ file ++ "': " ++ e.message ++ "\n"⟩

section

variable {m : Type → Type} [Monad m] [FileAccess m]

/-- Reads a source and does something with it. Nothing is done if it cannot
be read. -/
def withSource (file : String) (next : String → m Outcome) : m Outcome := do
  match ← readText file with
  | .ok source => next source
  | .error e => return e.outcome file

/-- Does what an invocation asks for. -/
def Invocation.run (i : Invocation) : m Outcome :=
  let options (file : String) : CompileOptions := ⟨file, i.checkArity⟩
  match i.action with
  | .lex file => withSource file fun source => return lexOutcome source
  | .parse file tree => withSource file fun source => return parseOutcome source file tree
  | .check file => withSource file fun source =>
    return checkOutcome source file (options file)
  | .build file output =>
    let output := output.getD (defaultOutput file)
    withSource file fun source => do
      let result ← build source output (options file)
      return buildOutcome result output (options file)

/-- What a verbose command tells ahead of its messages. The source is quoted;
a listing that was written is named as the path was given. -/
def Invocation.log (i : Invocation) (succeeded : Bool) : List String :=
  match i.action with
  | .lex file => ["lexing " ++ escapeText file]
  | .parse file _ => ["parsing " ++ escapeText file]
  | .check file => ["checking " ++ escapeText file]
  | .build file output =>
    ("building " ++ escapeText file) ::
      (if succeeded then ["listing written to " ++ output.getD (defaultOutput file)] else [])

/-- Name and version of the program. -/
def versionText : String := "credoc 0.1.0\n"

/-- How the program is called. -/
def usageText : String :=
  textOfLines
    ["Usage: credoc [-v] [--no-arity-check] <lex|parse|check|build> FILE",
     "",
     "lex FILE                   show the tokens of a source file",
     "parse FILE [--tree]        show the agent of a source file",
     "check FILE                 look for errors without writing output",
     "build FILE [-o OUTPUT]     compile an agent and write its listing",
     "",
     "-v, --verbose              tell on the error channel what is done",
     "--no-arity-check           do not check argument counts of plan invocations",
     "-V, --version              show the version",
     "-h, --help                 show this text"]

/-- Does what the arguments ask for. -/
def runCommand (args : List String) : m Outcome := do
  match Invocation.ofArgs {} args with
  | .error .version => return ⟨0, versionText, ""⟩
  | .error .help => return ⟨0, usageText, ""⟩
  | .error .usage => return ⟨2, "", usageText⟩
  | .ok i => do
    let outcome ← i.run
    if i.verbose then
      let log := i.log (outcome.exit = 0)
      return { outcome with stderr := textOfLines log ++ outcome.stderr }
    else return outcome

end

end AgentLang
