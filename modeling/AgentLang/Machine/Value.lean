import AgentLang.Arith
import AgentLang.Code.Listing
import AgentLang.Token

/-!
# Values and faults of the machine

A slot or field that was never written holds `unset`. The receiver stands
for the agent that runs and is only passed on. Integers and tuples of
integers are the values that beliefs are made of.
-/

namespace AgentLang

/-- What a slot, a field or the stack can hold. -/
inductive Value where
  | unset
  | receiver
  | int (value : Int64)
  | tuple (elements : List Int64)
deriving Repr, DecidableEq

def Value.render : Value → String
  | unset => "Unset"
  | receiver => "Receiver"
  | int value => "Int(" ++ renderInteger value ++ ")"
  | tuple elements =>
    "Tuple([" ++ commaSeparated (elements.map renderInteger) ++ "])"

/-- Values in brackets. -/
def renderValues (values : List Value) : String :=
  "[" ++ commaSeparated (values.map Value.render) ++ "]"

/-- Why a run cannot go on. -/
inductive Fault where
  | badArgumentSlot
  | badLocalSlot
  | badField
  | badTuple
  | badTupleIndex
  | badMethod
  | stackUnderflow
  | expectedInteger (found : Value)
  | expectedTuple (found : Value)
  | divisionByZero
  | callWithoutReceiver
  /-- A method was started with the wrong number of argument slots. -/
  | argumentCount (method : String) (expected found : Nat)
  /-- A method that was started from outside left values behind, the deepest
  first. -/
  | leftOnStack (method : String) (values : List Value)
  | noMethod (name : String)
deriving Repr, DecidableEq

def Fault.message : Fault → String
  | badArgumentSlot => "bad argument slot"
  | badLocalSlot => "bad local slot"
  | badField => "bad field"
  | badTuple => "bad tuple"
  | badTupleIndex => "bad tuple index"
  | badMethod => "bad method"
  | stackUnderflow => "stack underflow"
  | expectedInteger found => "expected an integer, found " ++ found.render
  | expectedTuple found => "expected a tuple, found " ++ found.render
  | divisionByZero => "division by zero"
  | callWithoutReceiver => "call without receiver"
  | argumentCount method expected found =>
    quoted method ++ " expects " ++ toString expected ++ " argument slots, got " ++
      toString found
  | leftOnStack method values =>
    quoted method ++ " left " ++ renderValues values ++ " on the stack"
  | noMethod name => "no method " ++ quoted name

end AgentLang
