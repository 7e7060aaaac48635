import AgentLang.Arith

/-!
# Instructions

Agents are compiled to code for a small stack machine. Every callable has
argument slots, local slots and an operand stack of its own; fields belong
to the agent that runs. Argument slot 0 always holds the receiver, so field
instructions never name it.

Slots, fields, methods and tuple types are numbered from 0 in the order of
their declaration, each in a table of its own.
-/

namespace AgentLang

/-- Position in the table of fields. -/
abbrev FieldId := Nat

/-- Position in the table of methods. -/
abbrev MethodId := Nat

/-- Position in the table of tuple types. -/
abbrev TupleId := Nat

/-- Position in the locals of a method. -/
abbrev LocalId := Nat

/-- One step of the machine. -/
inductive Instr where
  /-- Pushes an argument; slot 0 is the receiver. -/
  | loadArg (slot : Nat)
  /-- Pops into an argument. -/
  | storeArg (slot : Nat)
  | loadLocal (slot : LocalId)
  | storeLocal (slot : LocalId)
  /-- Pushes a field of the receiver. -/
  | loadField (field : FieldId)
  /-- Pops into a field of the receiver. -/
  | storeField (field : FieldId)
  | push (value : Int64)
  /-- Pops the right operand, then the left, and pushes the result. -/
  | arith (op : BinOp)
  /-- Pops as many integers as the tuple type has elements, the last element
  first, and pushes one tuple. -/
  | makeTuple (tuple : TupleId)
  /-- Pops a tuple and pushes one element of it. -/
  | tupleGet (tuple : TupleId) (index : Nat)
  /-- Pops `argc` values, the receiver being the deepest, and runs a method
  on them. -/
  | call (method : MethodId) (argc : Nat)
  | ret
deriving Repr, DecidableEq

/-- Numbers are written with a letter for their table. -/
def renderField (f : FieldId) : String := "f" ++ toString f

def renderMethod (m : MethodId) : String := "m" ++ toString m

def renderTuple (t : TupleId) : String := "t" ++ toString t

def renderLocal (l : LocalId) : String := "l" ++ toString l

/-- The mnemonic of an operator. -/
def BinOp.mnemonic : BinOp → String
  | add => "add"
  | sub => "sub"
  | mul => "mul"
  | div => "div"

/-- Mnemonic and operands, as in a listing. -/
def Instr.render : Instr → String
  | loadArg slot => "ldarg " ++ toString slot
  | storeArg slot => "starg " ++ toString slot
  | loadLocal slot => "ldloc " ++ renderLocal slot
  | storeLocal slot => "stloc " ++ renderLocal slot
  | loadField field => "ldfld " ++ renderField field
  | storeField field => "stfld " ++ renderField field
  | push value => "push " ++ renderInteger value
  | arith op => op.mnemonic
  | makeTuple tuple => "mktuple " ++ renderTuple tuple
  | tupleGet tuple index => "tget " ++ renderTuple tuple ++ "." ++ toString index
  | call method argc => "call " ++ renderMethod method ++ "/" ++ toString argc
  | ret => "ret"

end AgentLang
