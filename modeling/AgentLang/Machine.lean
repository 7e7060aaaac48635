import AgentLang.Machine.Activation

/-!
# Running compiled agents

A `Machine` is a live agent: its type and the current values of its fields.
Constructing it runs the constructor, calling a method by name runs that
method; a call that fails keeps the fields as they were at the failure.

Calls nest, and a method may call itself, so a run may have no end. Every
run is therefore given the depth to which calls may nest, and stops
`tooDeep` if that is not enough. That outcome is kept apart from the faults,
which are outcomes of the code itself.

A method started from outside has to get as many arguments as it declares
and has to leave its stack empty. A call from code checks neither.
-/

namespace AgentLang

/-- Why a run has not come to its end. -/
inductive Stop where
  | fault (cause : Fault)
  /-- Calls nest deeper than allowed. -/
  | tooDeep
deriving Repr, DecidableEq

/-- Runs code to its end or to the first return. `call` runs a method on
given arguments. -/
def runCode (tuples : List TupleDesc)
    (call : MethodId → List Value → Fields → Except Stop Unit × Fields) :
    List Instr → Activation → Fields → Except Stop Activation × Fields
  | [], a, fields => (.ok a, fields)
  | .ret :: _, a, fields => (.ok a, fields)
  | .call method argc :: code, a, fields =>
    match a.popCall argc with
    | .error f => (.error (.fault f), fields)
    | .ok (args, a) =>
      match call method args fields with
      | (.error s, fields) => (.error s, fields)
      | (.ok (), fields) => runCode tuples call code a fields
  | instr :: code, a, fields =>
    match a.step tuples fields instr with
    | .error f => (.error (.fault f), fields)
    | .ok (a, fields) => runCode tuples call code a fields

/-- Runs a method on arguments that include the receiver, with calls nested
at most `depth` deep. -/
def callMethod (tuples : List TupleDesc) (methods : List MethodDef) :
    Nat → MethodId → List Value → Fields → Except Stop Unit × Fields
  | 0, _, _, fields => (.error .tooDeep, fields)
  | depth + 1, method, args, fields =>
    match methods[method]? with
    | none => (.error (.fault .badMethod), fields)
    | some callee =>
      match runCode tuples (callMethod tuples methods depth) callee.code
          (.start args callee.locals.length) fields with
      | (.error s, fields) => (.error s, fields)
      | (.ok _, fields) => (.ok (), fields)

/-- Evaluates code on its own, without locals, fields or methods. The stack
that it leaves, the deepest value first. -/
def evalCode (tuples : List TupleDesc) (code : List Instr) : Except Stop (List Value) :=
  match runCode tuples (callMethod tuples [] 1) code (.start [.receiver] 0) [] with
  | (.error s, _) => .error s
  | (.ok a, _) => .ok a.stack.reverse

/-- A live agent. -/
structure Machine where
  type : AgentType
  fields : Fields
deriving Repr, DecidableEq

namespace Machine

/-- Starts a method from outside. -/
def invoke (depth : Nat) (m : Machine) (method : MethodDef) (args : List Int64) :
    Except Stop Unit × Machine :=
  let slots := Value.receiver :: args.map .int
  if slots.length ≠ method.argc then
    (.error (.fault (.argumentCount method.name method.argc slots.length)), m)
  else
    match runCode m.type.tuples (callMethod m.type.tuples m.type.methods depth)
        method.code (.start slots method.locals.length) m.fields with
    | (.error s, fields) => (.error s, { m with fields })
    | (.ok a, fields) =>
      if a.stack.isEmpty then (.ok (), { m with fields })
      else
        (.error (.fault (.leftOnStack method.name a.stack.reverse)), { m with fields })

/-- A new agent, its beliefs set by the constructor. -/
def construct (depth : Nat) (type : AgentType) (args : List Int64) :
    Except Stop Machine :=
  let raw : Machine := ⟨type, List.replicate type.fields.length .unset⟩
  match raw.invoke depth type.constructor args with
  | (.error s, _) => .error s
  | (.ok (), m) => .ok m

/-- Runs the first method of a given name. -/
def call (depth : Nat) (m : Machine) (name : String) (args : List Int64) :
    Except Stop Unit × Machine :=
  match m.type.method? name with
  | none => (.error (.fault (.noMethod name)), m)
  | some (_, method) => m.invoke depth method args

/-- The value of the first field of a given name. -/
def field? (m : Machine) (name : String) : Option Value :=
  match m.type.field? name with
  | none => none
  | some (id, _) => m.fields[id]?

end Machine

end AgentLang
