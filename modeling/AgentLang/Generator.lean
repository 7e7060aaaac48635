import AgentLang.Generator.Draft

/-!
# Code generation

`Generator.generate` compiles one agent. The beliefs are declared first,
then the constructor is compiled, then the members in order; a member is
visible in its own body and in the members after it. What is wrong with the
agent is collected, and the agent type is of use only if nothing is.

One generator can compile several agents in turn, all in the same assembly.
The tables of a finished agent go into its type and leave the generator empty
for the next; diagnostics stay and add up.
-/

namespace AgentLang

/-- The parameters of a compiled method. -/
def paramDefs (params : List Param) : List ParamDef :=
  params.map fun p => ⟨p.name.name, p.type.name⟩

def MemberKind.methodKind : MemberKind → MethodKind
  | plan => .plan
  | handler => .handler

/-! ## Agent types under construction -/

/-- An agent type under construction. -/
structure Assembly where
  scopes : Scopes
  tuples : TupleTable
  fields : List FieldDef
  methods : List MethodDef
  diagnostics : List SemanticError
deriving Repr, DecidableEq

namespace Assembly

def empty : Assembly := ⟨.empty, .empty, [], [], []⟩

/-- Opens the scope of an agent. -/
def enter (u : Assembly) : Assembly := { u with scopes := u.scopes.enter }

def report (u : Assembly) (errors : List SemanticError) : Assembly :=
  { u with diagnostics := u.diagnostics ++ errors }

/-- Binds a name of the agent. -/
def declare (u : Assembly) (name : Ident) (b : Binding) :
    Except InternalError Assembly := do
  let (scopes, errors) ← u.scopes.declare name.name name.span b
  return { u with scopes }.report errors

/-- Gives a belief its field. -/
def declareBelief (u : Assembly) (b : Belief) : Except InternalError Assembly := do
  let (described, tuples) := u.tuples.describe b.arity
  let (tuple, errors) := match described with
    | .ok id => (some id, [])
    | .error e => (none, [SemanticError.tuple e b.span])
  let field ← slotIndex u.fields.length "beliefs"
  let fields := u.fields ++ [⟨b.name.name, b.arity, tuple⟩]
  ({ u with tuples, fields }.report errors).declare b.name (.field field b.arity)

/-- Gives beliefs their fields, in order. -/
def declareBeliefs : List Belief → Assembly → Except InternalError Assembly
  | [], u => .ok u
  | b :: beliefs, u => do
    let u ← u.declareBelief b
    declareBeliefs beliefs u

/-- Takes over what a finished draft found out. -/
def close (u : Assembly) (d : Draft) : Except InternalError Assembly := do
  let scopes ← d.scopes.close
  return { u with scopes, tuples := d.tuples }.report d.diagnostics

/-- The constructor: it stores the initial values of all beliefs, in order. -/
def constructor (u : Assembly) (agent : Agent) :
    Except InternalError (MethodDef × Assembly) := do
  let d ← Draft.declareParams 1 agent.params (.start u.scopes u.tuples)
  let d ← Draft.initBeliefs u.fields 0 agent.beliefs d
  let u ← u.close d
  return (d.finish agent.name.name .constructor (paramDefs agent.params), u)

/-- Compiles a plan or handler. -/
def member (checkArity : Bool) (u : Assembly) (m : Member) :
    Except InternalError Assembly := do
  let id ← slotIndex u.methods.length "methods"
  let u ← u.declare m.name (.callable id m.params.length)
  let d ← Draft.declareParams 1 m.params (.start u.scopes u.tuples)
  let d ← Draft.statements checkArity m.body d
  let u ← u.close d
  let method := d.finish m.name.name m.kind.methodKind (paramDefs m.params)
  return { u with methods := u.methods ++ [method] }

/-- Compiles members in order. -/
def members (checkArity : Bool) : List Member → Assembly → Except InternalError Assembly
  | [], u => .ok u
  | m :: ms, u => do
    let u ← u.member checkArity m
    members checkArity ms u

end Assembly

/-! ## Generators -/

/-- The assembly in which one agent after the other is compiled, and how. -/
structure Generator extends Assembly where
  /-- Is the number of arguments of an invocation checked? -/
  checkArity : Bool
deriving Repr, DecidableEq

/-- A generator that has not compiled anything yet. -/
def Generator.new (checkArity : Bool) : Generator := ⟨.empty, checkArity⟩

/-- Compiles one agent. -/
def Generator.generate (g : Generator) (agent : Agent) :
    Except InternalError (AgentType × Generator) := do
  let u ← Assembly.declareBeliefs agent.beliefs g.toAssembly.enter
  let (constructor, u) ← u.constructor agent
  let u ← Assembly.members g.checkArity agent.members u
  let scopes ← u.scopes.close
  if scopes.depth ≠ 0 then
    throw (.unbalancedScopes scopes.depth)
  let type : AgentType :=
    { name := agent.name.name
      params := paramDefs agent.params
      fields := u.fields
      tuples := u.tuples.descriptors
      constructor
      methods := u.methods }
  return (type, { u with
    scopes, tuples := .empty, fields := [], methods := [], checkArity := g.checkArity })

/-- The agent type of an agent and what is wrong with it. -/
def generate (checkArity : Bool) (agent : Agent) :
    Except InternalError (AgentType × List SemanticError) := do
  let (type, g) ← (Generator.new checkArity).generate agent
  return (type, g.diagnostics)

end AgentLang
