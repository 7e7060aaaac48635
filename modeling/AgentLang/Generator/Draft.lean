import AgentLang.Agent
import AgentLang.Generator.SemanticError

/-!
# Code of bodies

A `Draft` is a method under construction. Statements are compiled one after
the other into it; mistakes are collected, and generation carries on past
them so that one run reports as many as possible. A draft starts without
code or diagnostics, so what it holds in the end is due to one body alone.

- A query `?b(x, ...)` moves each element of the belief into a new local.
- An update `+b(e, ...)` evaluates its arguments, packs them and overwrites
  the belief.
- An invocation `!m(e, ...)` pushes the receiver and the arguments and calls.
-/

namespace AgentLang

/-! ## Expressions -/

/-- The code that pushes the value of an expression. A name without an
integer value pushes nothing, and `Expr.faults` tells so. -/
def Expr.code (scopes : Scopes) : Expr → List Instr
  | ident name _ => ((scopes.lookup name).bind Binding.loadInteger?).toList
  | number value _ => [.push value]
  | binary op left right _ =>
    left.code scopes ++ right.code scopes ++ [.arith op]

/-- What is wrong with the names of an expression, from left to right. -/
def Expr.faults (scopes : Scopes) : Expr → List SemanticError
  | ident name span =>
    match scopes.lookup name with
    | none => [.notInScope name span]
    | some b =>
      if b.loadInteger?.isSome then [] else [.notAValue name b.kind span]
  | number _ _ => []
  | binary _ left right _ => left.faults scopes ++ right.faults scopes

/-! ## Numbers for slots -/

/-- Slots, fields and methods are numbered with 32 bits. -/
def slotIndex (n : Nat) (what : String) : Except InternalError Nat :=
  if n < 4294967296 then .ok n else .error (.slotOverflow what)

/-! ## Declaring names -/

/-- Binds a name that is written at `span`. A name that its scope has
already keeps its first meaning. -/
def Scopes.declare (s : Scopes) (name : String) (span : Span) (b : Binding) :
    Except InternalError (Scopes × List SemanticError) :=
  match s.register name b with
  | (.ok (), s') => .ok (s', [])
  | (.error (.redeclared name'), s') => .ok (s', [.redeclared name' span])
  | (.error (.emptyStack operation), _) => .error (.emptyScopeStack operation)

/-- Closes the innermost scope. -/
def Scopes.close (s : Scopes) : Except InternalError Scopes :=
  match s.exit with
  | (.ok (), s') => .ok s'
  | (.error _, _) => .error (.emptyScopeStack "exit")

/-! ## Drafts -/

/-- A method under construction. -/
structure Draft where
  scopes : Scopes
  tuples : TupleTable
  /-- The names of the local slots handed out so far. -/
  locals : List String
  code : List Instr
  /-- What was found wrong in this method so far. -/
  diagnostics : List SemanticError
deriving Repr, DecidableEq

namespace Draft

/-- An empty draft in a scope of its own. -/
def start (scopes : Scopes) (tuples : TupleTable) : Draft :=
  ⟨scopes.enter, tuples, [], [], []⟩

/-- Appends code. -/
def emit (d : Draft) (code : List Instr) : Draft :=
  { d with code := d.code ++ code }

/-- Appends diagnostics. -/
def report (d : Draft) (errors : List SemanticError) : Draft :=
  { d with diagnostics := d.diagnostics ++ errors }

/-- Binds a name in the innermost scope of the draft. -/
def declare (d : Draft) (name : String) (span : Span) (b : Binding) :
    Except InternalError Draft := do
  let (scopes, errors) ← d.scopes.declare name span b
  return { d with scopes }.report errors

/-- Binds parameters to the argument slots from `slot` on. -/
def declareParams (slot : Nat) : List Param → Draft → Except InternalError Draft
  | [], d => .ok d
  | p :: params, d => do
    let index ← slotIndex slot "parameters"
    let d ← d.declare p.name.name p.name.span (.argument index)
    declareParams (slot + 1) params d

/-- Hands out a new local slot. -/
def newLocal (d : Draft) (name : String) : Except InternalError (LocalId × Draft) := do
  let slot ← slotIndex d.locals.length "locals"
  return (slot, { d with locals := d.locals ++ [name] })

/-- Appends the code of expressions. -/
def evaluate (d : Draft) (es : List Expr) : Draft :=
  (d.emit (es.flatMap (·.code d.scopes))).report (es.flatMap (·.faults d.scopes))

/-- The number of the tuple type of an arity, reported at `span` if there is
none. -/
def tupleFor (d : Draft) (arity : Nat) (span : Span) : Option TupleId × Draft :=
  match d.tuples.describe arity with
  | (.ok id, tuples) => (some id, { d with tuples })
  | (.error e, tuples) => (none, { d with tuples }.report [.tuple e span])

/-- Packs the topmost integers into a tuple, if there is one of that arity. -/
def pack (d : Draft) (arity : Nat) (span : Span) : Bool × Draft :=
  match d.tuples.create arity with
  | (.ok instr, tuples) => (true, { d with tuples }.emit [instr])
  | (.error e, tuples) => (false, { d with tuples }.report [.tuple e span])

/-- Takes the element at `index` of the tuple on top of the stack. -/
def project (d : Draft) (arity index : Nat) (span : Span) : Draft :=
  match d.tuples.project arity index with
  | (.ok instr, tuples) => { d with tuples }.emit [instr]
  | (.error e, tuples) => { d with tuples }.report [.tuple e span]

/-- The field and arity of the belief that a name stands for. -/
def belief (d : Draft) (name : Ident) : Option (FieldId × Nat) × Draft :=
  match d.scopes.lookupAs name.name .field with
  | .ok (.field field arity) => (some (field, arity), d)
  | .ok _ => (none, d)
  | .error e => (none, d.report [.ofLookup e name.span])

/-- The number and the parameter count of the method that a name stands
for. -/
def callable (d : Draft) (name : Ident) : Option (MethodId × Nat) × Draft :=
  match d.scopes.lookupAs name.name .callable with
  | .ok (.callable method params) => (some (method, params), d)
  | .ok _ => (none, d)
  | .error e => (none, d.report [.ofLookup e name.span])

/-- Does a term have as many arguments as its belief has values? -/
def checkBeliefArity (d : Draft) (term : Term) (arity : Nat) : Bool × Draft :=
  if term.args.length = arity then (true, d)
  else
    (false, d.report
      [.beliefArityMismatch term.name.name arity term.args.length term.span])

/-! ## Statements -/

/-- Binds one target of a query to the element at `index` of a field. -/
def queryTarget (d : Draft) (belief : String) (field : FieldId) (arity index : Nat)
    (arg : Expr) : Except InternalError Draft :=
  match arg.name? with
  | none => .ok (d.report [.queryTargetNotIdent belief arg.span])
  | some name => do
    let (slot, d) ← d.newLocal name
    let d := (d.emit [.loadField field]).project arity index arg.span
    (d.emit [.storeLocal slot]).declare name arg.span (.localSlot slot)

/-- Binds the targets of a query to the elements from `index` on. -/
def queryTargets (belief : String) (field : FieldId) (arity : Nat) (index : Nat) :
    List Expr → Draft → Except InternalError Draft
  | [], d => .ok d
  | arg :: args, d => do
    let d ← d.queryTarget belief field arity index arg
    queryTargets belief field arity (index + 1) args d

/-- Nothing is bound if the belief is unknown or has another arity. -/
def query (d : Draft) (term : Term) : Except InternalError Draft :=
  match d.belief term.name with
  | (none, d) => .ok d
  | (some (field, arity), d) =>
    match d.checkBeliefArity term arity with
    | (false, d) => .ok d
    | (true, d) =>
      match d.tupleFor arity term.span with
      | (none, d) => .ok d
      | (some _, d) => queryTargets term.name.name field arity 0 term.args d

/-- The arguments are evaluated, and their mistakes found, in any case. -/
def update (d : Draft) (term : Term) : Draft :=
  let (target, d) := d.belief term.name
  let d := d.evaluate term.args
  match target with
  | none => d
  | some (field, arity) =>
    match d.checkBeliefArity term arity with
    | (false, d) => d
    | (true, d) =>
      match d.pack arity term.span with
      | (false, d) => d
      | (true, d) => d.emit [.storeField field]

/-- Without `checkArity` a call passes as many arguments as are written. -/
def invoke (checkArity : Bool) (d : Draft) (term : Term) : Except InternalError Draft :=
  let (target, d) := d.callable term.name
  let d := (d.emit [.loadArg 0]).evaluate term.args
  match target with
  | none => .ok d
  | some (method, params) =>
    if checkArity && term.args.length != params then
      .ok (d.report
        [.callArityMismatch term.name.name params term.args.length term.span])
    else do
      let argc ← slotIndex (term.args.length + 1) "arguments"
      return d.emit [.call method argc]

/-- Compiles one statement. -/
def statement (checkArity : Bool) (d : Draft) (stmt : Stmt) :
    Except InternalError Draft :=
  match stmt.kind with
  | .query => d.query stmt.term
  | .update => .ok (d.update stmt.term)
  | .invoke => d.invoke checkArity stmt.term

/-- Compiles statements in order; a query counts for those after it. -/
def statements (checkArity : Bool) : List Stmt → Draft → Except InternalError Draft
  | [], d => .ok d
  | stmt :: stmts, d => do
    let d ← d.statement checkArity stmt
    statements checkArity stmts d

/-! ## Constructors -/

/-- Stores the initial values of the belief with number `index`. A belief
whose field has no type is evaluated and not stored. -/
def initBelief (fields : List FieldDef) (index : Nat) (b : Belief) (d : Draft) :
    Except InternalError Draft :=
  let d := d.evaluate b.init
  if (fields[index]?.bind FieldDef.tuple).isSome then do
    let d := (d.pack b.arity b.span).2
    let field ← slotIndex index "beliefs"
    return d.emit [.storeField field]
  else .ok d

/-- Stores the initial values of the beliefs numbered from `index` on. -/
def initBeliefs (fields : List FieldDef) (index : Nat) :
    List Belief → Draft → Except InternalError Draft
  | [], d => .ok d
  | b :: beliefs, d => do
    let d ← d.initBelief fields index b
    initBeliefs fields (index + 1) beliefs d

/-- The finished method; its last instruction returns. -/
def finish (d : Draft) (name : String) (kind : MethodKind) (params : List ParamDef) :
    MethodDef :=
  ⟨name, kind, params, d.locals, d.code ++ [.ret]⟩

end Draft

end AgentLang
