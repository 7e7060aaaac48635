import AgentLang.Code.AgentType
import AgentLang.Text.Pad

/-!
# Listings

The text of a compiled agent: its tuple types and fields, then the
constructor and each method with its locals and numbered code. A listing is
made line by line; two blanks of indentation stand for each level.
-/

namespace AgentLang

/-- Texts with a comma and a blank between them. -/
def commaSeparated (texts : List String) : String := String.intercalate ", " texts

def ParamDef.render (p : ParamDef) : String := p.name ++ ": " ++ p.type

def renderParams (params : List ParamDef) : String :=
  commaSeparated (params.map ParamDef.render)

def TupleDesc.line (t : TupleDesc) : String :=
  "  tuple " ++ renderTuple t.id ++ " = (" ++
    commaSeparated (List.replicate t.arity "int") ++ ")"

/-- The type of a field, or a note that there is none. -/
def FieldDef.renderType (f : FieldDef) : String :=
  match f.tuple with
  | some id => renderTuple id
  | none => "<unsupported arity " ++ toString f.arity ++ ">"

def FieldDef.line (f : FieldDef) (id : FieldId) : String :=
  "  field " ++ renderField id ++ " " ++ f.name ++ ": " ++ f.renderType

/-- An instruction after its number, which has at least four digits. -/
def Instr.line (i : Instr) (number : Nat) : String :=
  "    " ++ padLeft 4 '0' (toString number) ++ ": " ++ i.render

/-- A method under its heading. -/
def MethodDef.lines (m : MethodDef) (heading : String) : List String :=
  ["  " ++ heading ++ "(" ++ renderParams m.params ++ ") \x7b"] ++
    m.locals.zipIdx.map (fun (name, l) => "    local " ++ renderLocal l ++ " " ++ name) ++
    m.code.zipIdx.map (fun (i, number) => i.line number) ++
    ["  \x7d"]

/-- The heading of a plan or handler. -/
def MethodDef.heading (m : MethodDef) (id : MethodId) : String :=
  m.kind.text ++ " " ++ renderMethod id ++ " " ++ m.name

/-- The lines of the listing. -/
def AgentType.lines (a : AgentType) : List String :=
  ["agent " ++ a.name ++ "(" ++ renderParams a.params ++ ") \x7b"] ++
    a.tuples.map TupleDesc.line ++
    a.fields.zipIdx.map (fun (f, id) => f.line id) ++
    "" :: a.constructor.lines a.constructor.kind.text ++
    a.methods.zipIdx.flatMap (fun (m, id) => "" :: m.lines (m.heading id)) ++
    ["\x7d"]

/-- The listing of a compiled agent. -/
def AgentType.listing (a : AgentType) : String :=
  String.join (a.lines.map (· ++ "\n"))

end AgentLang
