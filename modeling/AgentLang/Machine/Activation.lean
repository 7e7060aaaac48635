import AgentLang.Machine.Value

/-!
# One activation of a method

An activation is the argument slots, local slots and operand stack of a
method that runs. `Activation.step` is the effect of one instruction on it
and on the fields of the agent, for every instruction that neither calls nor
returns. A step that faults changes no field.
-/

namespace AgentLang

/-- The fields of an agent, by number. -/
abbrev Fields := List Value

/-- A method that runs. -/
structure Activation where
  args : List Value
  locals : List Value
  /-- The topmost value first. -/
  stack : List Value
deriving Repr, DecidableEq

namespace Activation

/-- The activation of a method with that many local slots. -/
def start (args : List Value) (locals : Nat) : Activation :=
  ⟨args, List.replicate locals .unset, []⟩

def push (a : Activation) (v : Value) : Activation := { a with stack := v :: a.stack }

def pop (a : Activation) : Except Fault (Value × Activation) :=
  match a.stack with
  | [] => .error .stackUnderflow
  | v :: stack => .ok (v, { a with stack })

def popInteger (a : Activation) : Except Fault (Int64 × Activation) := do
  let (v, a) ← a.pop
  match v with
  | .int n => return (n, a)
  | other => throw (.expectedInteger other)

/-- Pops `n` values in front of `above`, so that the result lists them in
the order in which they were pushed. -/
def popValues : Nat → List Value → Activation → Except Fault (List Value × Activation)
  | 0, above, a => .ok (above, a)
  | n + 1, above, a => do
    let (v, a) ← a.pop
    popValues n (v :: above) a

/-- Pops `n` integers in front of `above`, in the order of pushing. -/
def popIntegers : Nat → List Int64 → Activation → Except Fault (List Int64 × Activation)
  | 0, above, a => .ok (above, a)
  | n + 1, above, a => do
    let (v, a) ← a.popInteger
    popIntegers n (v :: above) a

/-- The arguments of a call, which start with the receiver. -/
def popCall (argc : Nat) (a : Activation) : Except Fault (List Value × Activation) := do
  let (args, a) ← a.popValues argc []
  if args.head? = some .receiver then return (args, a)
  else throw .callWithoutReceiver

/-- What a table holds at a place, if it has that place. -/
def fetch {α : Type} (table : List α) (index : Nat) (fault : Fault) : Except Fault α :=
  match table[index]? with
  | some v => .ok v
  | none => .error fault

/-- A table with one place overwritten, if it has that place. -/
def overwrite {α : Type} (table : List α) (index : Nat) (v : α) (fault : Fault) :
    Except Fault (List α) :=
  if index < table.length then .ok (table.set index v) else .error fault

/-- The effect of an instruction that neither calls nor returns. -/
def step (tuples : List TupleDesc) (a : Activation) (fields : Fields) :
    Instr → Except Fault (Activation × Fields)
  | .loadArg slot => do
    return (a.push (← fetch a.args slot .badArgumentSlot), fields)
  | .storeArg slot => do
    let (v, a) ← a.pop
    return ({ a with args := ← overwrite a.args slot v .badArgumentSlot }, fields)
  | .loadLocal slot => do
    return (a.push (← fetch a.locals slot .badLocalSlot), fields)
  | .storeLocal slot => do
    let (v, a) ← a.pop
    return ({ a with locals := ← overwrite a.locals slot v .badLocalSlot }, fields)
  | .loadField field => do
    return (a.push (← fetch fields field .badField), fields)
  | .storeField field => do
    let (v, a) ← a.pop
    return (a, ← overwrite fields field v .badField)
  | .push value => .ok (a.push (.int value), fields)
  | .arith op => do
    let (right, a) ← a.popInteger
    let (left, a) ← a.popInteger
    match op.apply? left right with
    | some v => return (a.push (.int v), fields)
    | none => throw .divisionByZero
  | .makeTuple tuple => do
    let desc ← fetch tuples tuple .badTuple
    let (elements, a) ← a.popIntegers desc.arity []
    return (a.push (.tuple elements), fields)
  | .tupleGet tuple index => do
    let desc ← fetch tuples tuple .badTuple
    let (v, a) ← a.pop
    match v with
    | .tuple elements =>
      if elements.length = desc.arity then
        return (a.push (.int (← fetch elements index .badTupleIndex)), fields)
      else throw (.expectedTuple v)
    | _ => throw (.expectedTuple v)
  | .call .. => .ok (a, fields)
  | .ret => .ok (a, fields)

end Activation

end AgentLang
