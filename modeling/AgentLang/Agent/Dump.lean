import AgentLang.Agent
import AgentLang.Text.Escape

/-!
# Dumps of syntax trees

The full tree of an agent, spans included, as indented text. A dump is a
list of lines; a record, a sequence or a tagged value sets its parts four
blanks further in, one after the other, each closed by a comma.
-/

namespace AgentLang

namespace Dump

/-- The lines of a part: set in, and closed by a comma. -/
def part : List String → List String
  | [] => []
  | [line] => ["    " ++ line ++ ","]
  | line :: lines => ("    " ++ line) :: part lines

/-- Puts a label in front of the first line. -/
def labelled (label : String) : List String → List String
  | [] => []
  | line :: lines => (label ++ ": " ++ line) :: lines

/-- A record with named fields. -/
def record (name : String) (fields : List (String × List String)) : List String :=
  (name ++ " \x7b") ::
    fields.flatMap (fun (label, lines) => part (labelled label lines)) ++ ["\x7d"]

/-- A value under a tag. -/
def tagged (tag : String) (value : List String) : List String :=
  (tag ++ "(") :: part value ++ [")"]

/-- A sequence; an empty one takes a single line. -/
def sequence (items : List (List String)) : List String :=
  if items.isEmpty then ["[]"] else "[" :: items.flatMap part ++ ["]"]

end Dump

open Dump

def Location.dump (l : Location) : List String :=
  record "Location"
    [("offset", [toString l.offset]), ("line", [toString l.line.toNat]),
     ("column", [toString l.column.toNat])]

def Span.dump (s : Span) : List String :=
  record "Span" [("start", s.start.dump), ("end", s.stop.dump)]

def Ident.dump (i : Ident) : List String :=
  record "Spanned" [("node", [escapeText i.name]), ("span", i.span.dump)]

def BinOp.dump : BinOp → List String
  | add => ["Add"]
  | sub => ["Sub"]
  | mul => ["Mul"]
  | div => ["Div"]

/-- An expression: what it is, and its span. -/
def Expr.dump : Expr → List String
  | ident name span =>
    record "Expr" [("kind", tagged "Ident" [escapeText name]), ("span", span.dump)]
  | number value span =>
    record "Expr" [("kind", tagged "Number" [renderInteger value]), ("span", span.dump)]
  | binary op left right span =>
    record "Expr"
      [("kind", record "Binary"
        [("op", op.dump), ("left", left.dump), ("right", right.dump)]),
       ("span", span.dump)]

def Param.dump (p : Param) : List String :=
  record "Param" [("name", p.name.dump), ("ty", p.type.dump), ("span", p.span.dump)]

def Term.dump (t : Term) : List String :=
  record "Term"
    [("name", t.name.dump), ("args", sequence (t.args.map Expr.dump)),
     ("span", t.span.dump)]

def StmtKind.tag : StmtKind → String
  | query => "Query"
  | update => "Update"
  | invoke => "Invoke"

def Stmt.dump (s : Stmt) : List String :=
  record "Stmt" [("kind", tagged s.kind.tag s.term.dump), ("span", s.span.dump)]

def Belief.dump (b : Belief) : List String :=
  record "BeliefDecl"
    [("name", b.name.dump), ("init", sequence (b.init.map Expr.dump)),
     ("span", b.span.dump)]

def MemberKind.tag : MemberKind → String
  | plan => "Plan"
  | handler => "Handler"

def Member.dump (m : Member) : List String :=
  tagged m.kind.tag (record "ProcDecl"
    [("name", m.name.dump), ("params", sequence (m.params.map Param.dump)),
     ("body", sequence (m.body.map Stmt.dump)), ("span", m.span.dump)])

def Agent.dump (a : Agent) : List String :=
  record "AgentDecl"
    [("name", a.name.dump), ("params", sequence (a.params.map Param.dump)),
     ("beliefs", sequence (a.beliefs.map Belief.dump)),
     ("members", sequence (a.members.map Member.dump)), ("span", a.span.dump)]

end AgentLang
