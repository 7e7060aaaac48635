import AgentLang.Arith
import AgentLang.Source.Location

/-!
# Agent declarations

The syntax tree of a compilation unit, which is exactly one agent. An
agent has parameters, beliefs (named stores of integers, with their
initial values) and members (plans and handlers, which share one shape).
A member's body is a list of statements, each a term marked as a query, an
update or an invocation.

In the source beliefs and members may be mixed; `Agent.ofItems` keeps them
apart, each in source order, so that everything after parsing sees one
shape.
-/

namespace AgentLang

/-! ## Expressions -/

/-- An integer expression. Each node has its own span. -/
inductive Expr where
  | ident (name : String) (span : Span)
  | number (value : Int64) (span : Span)
  | binary (op : BinOp) (left right : Expr) (span : Span)
deriving Repr, DecidableEq

def Expr.span : Expr → Span
  | ident _ span => span
  | number _ span => span
  | binary _ _ _ span => span

/-- Two operands joined by an operator, spanning both. -/
def Expr.join (op : BinOp) (left right : Expr) : Expr :=
  .binary op left right (left.span.merge right.span)

/-- The name, if the expression is nothing but a name. -/
def Expr.name? : Expr → Option String
  | ident name _ => some name
  | _ => none

/-- Fully parenthesised, so that the text shows how operators associate. -/
def Expr.render : Expr → String
  | ident name _ => name
  | number value _ => renderInteger value
  | binary op left right _ =>
    "(" ++ left.render ++ " " ++ op.text ++ " " ++ right.render ++ ")"

/-! ## Declarations -/

/-- A name where it is written. -/
structure Ident where
  name : String
  span : Span
deriving Repr, DecidableEq

/-- A parameter `name: type`. The type is carried along and never checked. -/
structure Param where
  name : Ident
  type : Ident
  span : Span
deriving Repr, DecidableEq

/-- A name with arguments, `name(expr, ...)`. -/
structure Term where
  name : Ident
  args : List Expr
  span : Span
deriving Repr, DecidableEq

/-- What a statement does with its term. -/
inductive StmtKind where
  /-- Binds the values of a belief to new local names. -/
  | query
  /-- Replaces the values of a belief. -/
  | update
  /-- Calls a plan or handler. -/
  | invoke
deriving Repr, DecidableEq

/-- A term and what is done with it. -/
structure Stmt where
  kind : StmtKind
  term : Term
  span : Span
deriving Repr, DecidableEq

/-- A belief `bel name(atom, ...)`. The number of initial values is its
arity. Parsed beliefs hold names and literals only. -/
structure Belief where
  name : Ident
  init : List Expr
  span : Span
deriving Repr, DecidableEq

def Belief.arity (b : Belief) : Nat := b.init.length

/-- Plans and handlers differ in nothing but the word that opens them. -/
inductive MemberKind where
  | plan | handler
deriving Repr, DecidableEq

/-- A plan `plan name(params) { ... }` or a handler `on name(params) { ... }`.
The span starts at the name. -/
structure Member where
  kind : MemberKind
  name : Ident
  params : List Param
  body : List Stmt
  span : Span
deriving Repr, DecidableEq

/-- One entry of an agent's body, as written. -/
inductive Item where
  | belief (b : Belief)
  | member (m : Member)
deriving Repr, DecidableEq

def Item.belief? : Item → Option Belief
  | belief b => some b
  | member _ => none

def Item.member? : Item → Option Member
  | belief _ => none
  | member m => some m

/-- One agent: the whole of a compilation unit. -/
structure Agent where
  name : Ident
  params : List Param
  /-- In source order. -/
  beliefs : List Belief
  /-- In source order. -/
  members : List Member
  span : Span
deriving Repr, DecidableEq

/-- Keeps the beliefs and the members of a body apart. -/
def Agent.ofItems (name : Ident) (params : List Param) (items : List Item)
    (span : Span) : Agent :=
  ⟨name, params, items.filterMap Item.belief?, items.filterMap Item.member?, span⟩

end AgentLang
