import AgentLang.Code.Instr

/-!
# Compiled agents

An `AgentType` is what an agent is compiled to: a field for each belief, the
tuple types that the fields hold, a constructor, and a method for each plan
or handler.
-/

namespace AgentLang

/-- A tuple type: that many integers. -/
structure TupleDesc where
  id : TupleId
  arity : Nat
deriving Repr, DecidableEq

/-- A parameter of a compiled method, its type as written. -/
structure ParamDef where
  name : String
  type : String
deriving Repr, DecidableEq

/-- The storage of one belief. -/
structure FieldDef where
  name : String
  arity : Nat
  /-- The type of the stored value; none if there is no tuple of that
  arity. -/
  tuple : Option TupleId
deriving Repr, DecidableEq

inductive MethodKind where
  | constructor | plan | handler
deriving Repr, DecidableEq

def MethodKind.text : MethodKind → String
  | constructor => "constructor"
  | plan => "plan"
  | handler => "handler"

/-- A compiled constructor, plan or handler. -/
structure MethodDef where
  name : String
  kind : MethodKind
  /-- Argument slot `i + 1` holds parameter `i`. -/
  params : List ParamDef
  /-- The names of the local slots. -/
  locals : List String
  code : List Instr
deriving Repr, DecidableEq

/-- The number of argument slots, the receiver included. -/
def MethodDef.argc (m : MethodDef) : Nat := m.params.length + 1

/-- A compiled agent. -/
structure AgentType where
  name : String
  params : List ParamDef
  fields : List FieldDef
  tuples : List TupleDesc
  constructor : MethodDef
  methods : List MethodDef
deriving Repr, DecidableEq

/-- The first element that satisfies `p`, with its position. -/
def findWithIndex? {α : Type} (p : α → Bool) (l : List α) : Option (Nat × α) :=
  (l.zipIdx.find? fun (a, _) => p a).map fun (a, i) => (i, a)

/-- The first field of a given name. -/
def AgentType.field? (a : AgentType) (name : String) : Option (FieldId × FieldDef) :=
  findWithIndex? (·.name == name) a.fields

/-- The first method of a given name. -/
def AgentType.method? (a : AgentType) (name : String) : Option (MethodId × MethodDef) :=
  findWithIndex? (·.name == name) a.methods

end AgentLang
