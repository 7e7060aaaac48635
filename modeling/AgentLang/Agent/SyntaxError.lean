import AgentLang.Token

/-!
# Syntax errors

What can be wrong with the tokens of an agent, each with the span of the
token that is to blame. The wording of every message is here.
-/

namespace AgentLang

/-- A token that a production asks for. -/
inductive Expected where
  | keyword (word : Keyword)
  | symbol (sign : Symbol)
  | identifier
deriving Repr, DecidableEq

/-- Names the class of tokens that would do. -/
def Expected.describe : Expected → String
  | keyword w => quoted w.text
  | symbol s => quoted s.text
  | identifier => "identifier"

/-- Would a token of this kind do? -/
def Expected.admits : Expected → TokenKind → Bool
  | keyword w, .keyword w' => w = w'
  | symbol s, .symbol s' => s = s'
  | identifier, .ident _ => true
  | _, _ => false

/-- A mistake in the tokens of a unit. -/
inductive SyntaxError where
  | unexpectedToken (expected : Expected) (found : TokenKind) (span : Span)
  | expectedStatement (found : TokenKind) (span : Span)
  | expectedAtom (found : TokenKind) (span : Span)
  | integerOutOfRange (literal : String) (span : Span)
  | trailingInput (found : TokenKind) (span : Span)
deriving Repr, DecidableEq

/-- Where the error is. -/
def SyntaxError.span : SyntaxError → Span
  | unexpectedToken _ _ span => span
  | expectedStatement _ span => span
  | expectedAtom _ span => span
  | integerOutOfRange _ span => span
  | trailingInput _ span => span

/-- The code under which the error is reported. -/
def SyntaxError.code : SyntaxError → String
  | unexpectedToken .. => "E1001"
  | expectedStatement .. => "E1002"
  | expectedAtom .. => "E1003"
  | integerOutOfRange .. => "E1004"
  | trailingInput .. => "E1005"

/-- The headline of a report. -/
def SyntaxError.title : SyntaxError → String
  | unexpectedToken .. => "unexpected token"
  | expectedStatement .. => "expected a statement"
  | expectedAtom .. => "expected a value"
  | integerOutOfRange .. => "integer literal too large"
  | trailingInput .. => "trailing input"

/-- What is wrong, in a sentence. -/
def SyntaxError.message : SyntaxError → String
  | unexpectedToken expected found _ =>
    "expected " ++ expected.describe ++ ", found " ++ found.render
  | expectedStatement found _ =>
    "unexpected " ++ found.render ++
      ", expected a statement starting with `?`, `+` or `!`"
  | expectedAtom found _ =>
    "unexpected " ++ found.render ++ ", expected an identifier or a number"
  | integerOutOfRange literal _ =>
    "integer literal " ++ quoted literal ++ " does not fit in a machine integer"
  | trailingInput found _ =>
    "unexpected " ++ found.render ++ " after the agent declaration"

end AgentLang
