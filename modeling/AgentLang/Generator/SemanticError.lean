import AgentLang.Code.TupleTable
import AgentLang.Scope
import AgentLang.Source.Location

/-!
# Semantic errors

What can be wrong with an agent that is well formed as a text, each with the
span that a report points at. The wording of every message is here.

An `InternalError` is no mistake of the agent: it says that the generator
lost track of its scopes, or ran out of numbers for slots.
-/

namespace AgentLang

/-- A mistake in a well-formed agent. -/
inductive SemanticError where
  | notInScope (name : String) (span : Span)
  | wrongKind (name : String) (expected found : BindingKind) (span : Span)
  | notAValue (name : String) (found : BindingKind) (span : Span)
  | redeclared (name : String) (span : Span)
  | beliefArityMismatch (name : String) (expected found : Nat) (span : Span)
  | callArityMismatch (name : String) (expected found : Nat) (span : Span)
  | queryTargetNotIdent (belief : String) (span : Span)
  | tuple (cause : TupleError) (span : Span)
deriving Repr, DecidableEq

/-- Where the error is. -/
def SemanticError.span : SemanticError → Span
  | notInScope _ span => span
  | wrongKind _ _ _ span => span
  | notAValue _ _ span => span
  | redeclared _ span => span
  | beliefArityMismatch _ _ _ span => span
  | callArityMismatch _ _ _ span => span
  | queryTargetNotIdent _ span => span
  | tuple _ span => span

/-- The code under which the error is reported. -/
def SemanticError.code : SemanticError → String
  | notInScope .. => "E2001"
  | wrongKind .. => "E2002"
  | notAValue .. => "E2003"
  | redeclared .. => "E2004"
  | beliefArityMismatch .. => "E2005"
  | callArityMismatch .. => "E2006"
  | queryTargetNotIdent .. => "E2007"
  | tuple .. => "E2008"

/-- The headline of a report. -/
def SemanticError.title : SemanticError → String
  | notInScope .. => "name not in scope"
  | wrongKind .. => "name bound to wrong kind"
  | notAValue .. => "name bound to wrong kind"
  | redeclared .. => "duplicate declaration"
  | beliefArityMismatch .. => "belief arity mismatch"
  | callArityMismatch .. => "argument count mismatch"
  | queryTargetNotIdent .. => "invalid query target"
  | tuple .. => "unsupported arity"

/-- What is wrong, in a sentence. -/
def SemanticError.message : SemanticError → String
  | notInScope name _ => quoted name ++ " is not in scope"
  | wrongKind name expected found _ =>
    quoted name ++ " is a " ++ found.text ++ ", expected a " ++ expected.text
  | notAValue name found _ =>
    quoted name ++ " is a " ++ found.text ++ " and cannot be used as an integer value"
  | redeclared name _ => quoted name ++ " is already declared in this scope"
  | beliefArityMismatch name expected found _ =>
    "belief " ++ quoted name ++ " holds " ++ toString expected ++ " values, but " ++
      toString found ++ " were given"
  | callArityMismatch name expected found _ =>
    quoted name ++ " takes " ++ toString expected ++ " arguments, but " ++
      toString found ++ " were given"
  | queryTargetNotIdent belief _ =>
    "a query on " ++ quoted belief ++ " can only bind plain identifiers"
  | tuple cause _ => cause.message

/-- A failed look-up of the name written at `span`. -/
def SemanticError.ofLookup (e : LookupError) (span : Span) : SemanticError :=
  match e with
  | .notFound name => .notInScope name span
  | .wrongKind name expected found => .wrongKind name expected found span

/-- A broken promise of the generator. -/
inductive InternalError where
  | emptyScopeStack (operation : String)
  | unbalancedScopes (depth : Nat)
  | slotOverflow (what : String)
deriving Repr, DecidableEq

def InternalError.message : InternalError → String
  | emptyScopeStack operation =>
    "internal compiler error: no open scope to " ++ operation
  | unbalancedScopes depth =>
    "internal compiler error: " ++ toString depth ++
      " scopes still open after generation"
  | slotOverflow what =>
    "internal compiler error: too many " ++ what ++ " in one unit"

end AgentLang
