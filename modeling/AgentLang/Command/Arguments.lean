/-!
# Arguments of the command line

```text
[switches] lex FILE
[switches] parse FILE [--tree]
[switches] check FILE
[switches] build FILE [-o OUTPUT]
```

The switches `-v`, `--verbose` and `--no-arity-check` may stand before or
after the name of the subcommand, `-V` and `--version` only before it, and
`-h` and `--help` anywhere. Short switches can be joined (`-vo x`). The value
of `-o` is the next argument, or is attached to the switch (`-ox`, `-o=x`,
`--output=x`). After `--` every argument is a file name; `-` alone always
is.

Arguments are read from left to right, and the first that is wrong, or asks
for help or the version, ends the reading.
-/

namespace AgentLang

/-- What can be done with a source file. -/
inductive Subcommand where
  | lex | parse | check | build
deriving Repr, DecidableEq

def Subcommand.ofName? : String → Option Subcommand
  | "lex" => some .lex
  | "parse" => some .parse
  | "check" => some .check
  | "build" => some .build
  | _ => none

/-- Why arguments name nothing to be done. -/
inductive EarlyEnd where
  /-- The arguments make no sense. -/
  | usage
  | version
  | help
deriving Repr, DecidableEq

/-- The switches, each under its short and long name. -/
inductive Switch where
  | verbose | noArityCheck | tree | output | version | help
deriving Repr, DecidableEq

def Switch.ofLong? : String → Option Switch
  | "verbose" => some .verbose
  | "no-arity-check" => some .noArityCheck
  | "tree" => some .tree
  | "output" => some .output
  | "version" => some .version
  | "help" => some .help
  | _ => none

def Switch.ofShort? : Char → Option Switch
  | 'v' => some .verbose
  | 'o' => some .output
  | 'V' => some .version
  | 'h' => some .help
  | _ => none

/-- May the switch stand after the name of this subcommand, or, for `none`,
before any? -/
def Switch.allowed : Switch → Option Subcommand → Bool
  | verbose, _ => true
  | noArityCheck, _ => true
  | help, _ => true
  | tree, some .parse => true
  | output, some .build => true
  | version, none => true
  | _, _ => false

/-- What the arguments read so far ask for. -/
structure Settings where
  seen : List Switch := []
  output : Option String := none
  file : Option String := none
deriving Repr, DecidableEq

namespace Settings

/-- Takes note of a switch. Each may be given once. -/
def set (st : Settings) (level : Option Subcommand) (s : Switch) :
    Except EarlyEnd Settings :=
  if !s.allowed level then .error .usage
  else
    match s with
    | .version => .error .version
    | .help => .error .help
    | _ => if s ∈ st.seen then .error .usage else .ok { st with seen := s :: st.seen }

/-- Takes the value of `-o`, which is not empty. -/
def setOutput (st : Settings) (value : String) : Except EarlyEnd Settings :=
  if value.isEmpty then .error .usage else .ok { st with output := some value }

/-- Takes the one file name, which is not empty. -/
def setFile (st : Settings) (name : String) : Except EarlyEnd Settings :=
  if name.isEmpty || st.file.isSome then .error .usage
  else .ok { st with file := some name }

/-- Reads joined short switches. The result tells whether the value of `-o`
is still to come. -/
def shorts (level : Option Subcommand) :
    List Char → Settings → Except EarlyEnd (Settings × Bool)
  | [], st => .ok (st, false)
  | c :: cs, st =>
    match Switch.ofShort? c with
    | none => .error .usage
    | some .output => do
      let st ← st.set level .output
      match cs with
      | [] => return (st, true)
      | '=' :: value => return (← st.setOutput (String.ofList value), false)
      | value => return (← st.setOutput (String.ofList value), false)
    | some s => do shorts level cs (← st.set level s)

/-- Reads one long switch, its dashes apart, with a value that may be
attached to it. -/
def long (level : Option Subcommand) (cs : List Char) (st : Settings) :
    Except EarlyEnd (Settings × Bool) :=
  let attached := cs.dropWhile (· != '=')
  match Switch.ofLong? (String.ofList (cs.takeWhile (· != '='))) with
  | none => .error .usage
  | some .output => do
    let st ← st.set level .output
    match attached with
    | [] => return (st, true)
    | _ :: value => return (← st.setOutput (String.ofList value), false)
  | some s =>
    if attached.isEmpty then do return (← st.set level s, false)
    else .error .usage

/-- Reads one argument that starts with a dash. -/
def switches (level : Option Subcommand) (arg : String) (st : Settings) :
    Except EarlyEnd (Settings × Bool) :=
  match arg.toList with
  | '-' :: '-' :: cs => long level cs st
  | '-' :: cs => shorts level cs st
  | _ => .error .usage

end Settings

/-- Is the argument a switch rather than a name? -/
def isSwitch (arg : String) : Bool :=
  match arg.toList with
  | '-' :: _ :: _ => true
  | _ => false

/-- Reads the arguments after the name of a subcommand. -/
def subcommandArgs (c : Subcommand) : List String → Settings → Except EarlyEnd Settings
  | [], st => .ok st
  | "--" :: names, st => names.foldlM Settings.setFile st
  | arg :: args, st =>
    if isSwitch arg then
      match st.switches (some c) arg with
      | .error e => .error e
      | .ok (st, false) => subcommandArgs c args st
      | .ok (st, true) =>
        match args with
        | [] => .error .usage
        | value :: args =>
          if isSwitch value then .error .usage
          else
            match st.setOutput value with
            | .error e => .error e
            | .ok st => subcommandArgs c args st
    else
      match st.setFile arg with
      | .error e => .error e
      | .ok st => subcommandArgs c args st

/-- What to do. -/
inductive Action where
  | lex (file : String)
  | parse (file : String) (tree : Bool)
  | check (file : String)
  | build (file : String) (output : Option String)
deriving Repr, DecidableEq

/-- What to do, and how. -/
structure Invocation where
  verbose : Bool
  checkArity : Bool
  action : Action
deriving Repr, DecidableEq

/-- What a subcommand with these settings asks for. A file name is needed. -/
def Subcommand.action (c : Subcommand) (st : Settings) : Except EarlyEnd Action :=
  match st.file with
  | none => .error .usage
  | some file =>
    .ok <| match c with
      | .lex => .lex file
      | .parse => .parse file (.tree ∈ st.seen)
      | .check => .check file
      | .build => .build file st.output

/-- The subcommand `help` names at most one subcommand. -/
def helpArgs : List String → EarlyEnd
  | [] => .help
  | [name] => if name = "help" ∨ (Subcommand.ofName? name).isSome then .help else .usage
  | _ => .usage

/-- Reads the arguments from the first on; `st` holds the switches that
stand before the name of the subcommand. -/
def Invocation.ofArgs (st : Settings) : List String → Except EarlyEnd Invocation
  | [] => .error .usage
  | arg :: args =>
    if isSwitch arg then
      match st.switches none arg with
      | .error e => .error e
      | .ok (st, _) => Invocation.ofArgs st args
    else if arg = "help" then .error (helpArgs args)
    else
      match Subcommand.ofName? arg with
      | none => .error .usage
      | some c => do
        let sub ← subcommandArgs c args {}
        let action ← c.action sub
        return ⟨.verbose ∈ st.seen ++ sub.seen, .noArityCheck ∉ st.seen ++ sub.seen, action⟩

end AgentLang
