import AgentLang.Source.Location

/-!
# Tokens

The vocabulary of the agent language: five keywords, the fixed symbols,
numbers, identifiers, unrecognised runs, and the end of the file. A token
is its kind and its span; the text it was read from is a function of the
kind (`TokenKind.text`), so the two never disagree.

Two renderings are used in messages. `TokenKind.render` names one
particular token ("identifier `x`"), `TokenKind.describe` names its class
("identifier").
-/

namespace AgentLang

/-- The reserved words. -/
inductive Keyword where
  | agent | bel | on | plan | proto
deriving Repr, DecidableEq

/-- How a keyword is spelled. -/
def Keyword.text : Keyword → String
  | agent => "agent"
  | bel => "bel"
  | on => "on"
  | plan => "plan"
  | proto => "proto"

/-- Every keyword. -/
def Keyword.all : List Keyword := [agent, bel, on, plan, proto]

/-- Operators and delimiters. -/
inductive Symbol where
  | plus | minus | star | slash | query | queryQuery | bang
  | lparen | rparen | lbracket | rbracket | lbrace | rbrace
  | comma | dot | semi | colon
deriving Repr, DecidableEq

/-- How a symbol is spelled. -/
def Symbol.text : Symbol → String
  | plus => "+"
  | minus => "-"
  | star => "*"
  | slash => "/"
  | query => "?"
  | queryQuery => "??"
  | bang => "!"
  | lparen => "("
  | rparen => ")"
  | lbracket => "["
  | rbracket => "]"
  | lbrace => "\x7b"
  | rbrace => "\x7d"
  | comma => ","
  | dot => "."
  | semi => ";"
  | colon => ":"

/-- Every symbol. -/
def Symbol.all : List Symbol :=
  [plus, minus, star, slash, query, queryQuery, bang, lparen, rparen,
   lbracket, rbracket, lbrace, rbrace, comma, dot, semi, colon]

/-- Quotes a piece of source in a message. -/
def quoted (text : String) : String := "`" ++ text ++ "`"

/-- What a token is. -/
inductive TokenKind where
  | keyword (word : Keyword)
  | symbol (sign : Symbol)
  /-- Decimal digits, as written. -/
  | number (digits : String)
  | ident (name : String)
  /-- A run up to the next blank that starts with no known token. -/
  | unknown (run : String)
  | eof
deriving Repr, DecidableEq

/-- The text of the token. The end of the file, which has none, is named. -/
def TokenKind.text : TokenKind → String
  | keyword w => w.text
  | symbol s => s.text
  | number digits => digits
  | ident name => name
  | unknown run => run
  | eof => "end of file"

/-- Names this one token in a message. -/
def TokenKind.render : TokenKind → String
  | keyword w => w.text
  | symbol s => s.text
  | number digits => "number " ++ quoted digits
  | ident name => "identifier " ++ quoted name
  | unknown run => "unknown " ++ quoted run
  | eof => "end of file"

/-- Names the class of the token in a message. -/
def TokenKind.describe : TokenKind → String
  | keyword w => quoted w.text
  | symbol s => quoted s.text
  | number _ => "number"
  | ident _ => "identifier"
  | unknown _ => "unknown"
  | eof => "end of file"

/-- Is this an unrecognised run? -/
def TokenKind.isUnknown : TokenKind → Bool
  | unknown _ => true
  | _ => false

/-- The keyword with a given spelling. -/
def Keyword.ofText? (s : String) : Option Keyword :=
  Keyword.all.find? (·.text == s)

/-- The symbol with a given spelling. -/
def Symbol.ofText? (s : String) : Option Symbol :=
  Symbol.all.find? (·.text == s)

/-- A spelling determines its keyword. -/
@[simp] theorem Keyword.ofText?_text (w : Keyword) :
    Keyword.ofText? w.text = some w := by
  cases w <;> decide

/-- A spelling determines its symbol. -/
@[simp] theorem Symbol.ofText?_text (s : Symbol) :
    Symbol.ofText? s.text = some s := by
  cases s <;> decide

/-- A token: what it is and where it stands. -/
structure Token where
  kind : TokenKind
  span : Span
deriving Repr, DecidableEq

/-- The text of the token. -/
def Token.lexeme (t : Token) : String := t.kind.text

end AgentLang
