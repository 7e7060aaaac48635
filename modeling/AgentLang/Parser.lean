import AgentLang.Agent
import AgentLang.Agent.SyntaxError
import AgentLang.Token.Lexer

/-!
# Parsers

A parser is a place in a token stream together with the errors found so
far. This file has the moves that every production is made of.

There are two ways to go on after an error. A production that asks for
one particular token reports a mismatch and takes whatever token stands
there (`expect`). A statement that cannot be completed is skipped up to
its `;`, but never past a `}` (`recover`).

Each function that takes a parser returns the parser it leaves behind.
The lemmas on `remaining` count the tokens that are read: no function
gives one back, and every round of a loop takes at least one, which is
why all loops end.
-/

namespace AgentLang

/-- A parser at some point of its source. -/
structure Parser where
  /-- The tokens still to be read, the end of the file apart. -/
  unread : List Token
  /-- The span of the end of the file. -/
  eof : Span
  /-- The span of the token read last. -/
  previous : Span
  /-- What was found wrong so far, in the order of discovery. -/
  errors : List SyntaxError
deriving Repr, DecidableEq

/-- A parser that reads a token stream from its start. -/
def Parser.ofStream (s : TokenStream) : Parser :=
  ⟨s.tokens, s.eof, .nowhere, []⟩

/-- A parser that reads a source from its start. -/
def Parser.ofSource (source : String) : Parser := .ofStream (lex source)

namespace Parser

/-! ## Reading tokens -/

/-- The number of tokens still to be read. -/
def remaining (p : Parser) : Nat := p.unread.length

/-- The token to be read next. At the end it is the end of the file, over
and over. -/
def current (p : Parser) : Token :=
  match p.unread with
  | [] => ⟨.eof, p.eof⟩
  | t :: _ => t

/-- Reads the current token. -/
def advance (p : Parser) : Parser :=
  match p.unread with
  | [] => { p with previous := p.eof }
  | t :: ts => { p with unread := ts, previous := t.span }

/-- Is the current token this symbol? -/
def sees (p : Parser) (s : Symbol) : Bool := p.current.kind = .symbol s

/-- Has every token been read? -/
def atEnd (p : Parser) : Bool := p.current.kind = .eof

/-- Records an error. -/
def report (p : Parser) (e : SyntaxError) : Parser :=
  { p with errors := p.errors ++ [e] }

/-- The error of finding the current token where another was due. -/
def mismatch (p : Parser) (e : Expected) : SyntaxError :=
  .unexpectedToken e p.current.kind p.current.span

/-- Reads the token that is due. A mismatch is reported, and the token that
stands there is read all the same. -/
def expect (p : Parser) (e : Expected) : Parser :=
  if e.admits p.current.kind then p.advance
  else (p.report (p.mismatch e)).advance

/-- Reads a name. A mismatched token gives its text as the name, so that
the tree keeps its shape. -/
def identifier (p : Parser) : Ident × Parser :=
  (⟨p.current.lexeme, p.current.span⟩, p.expect .identifier)

/-- Does the current token end a block? -/
def atBlockEnd (p : Parser) : Bool := p.sees .rbrace || p.atEnd

theorem remaining_advance (p : Parser) : p.advance.remaining = p.remaining - 1 := by
  unfold advance remaining
  split <;> simp [*]

theorem remaining_advance_le (p : Parser) : p.advance.remaining ≤ p.remaining := by
  rw [remaining_advance]; omega

/-- Only the end of the file can be read without end. -/
theorem remaining_advance_lt {p : Parser} (h : p.current.kind ≠ .eof) :
    p.advance.remaining < p.remaining := by
  rw [remaining_advance]
  unfold current at h
  unfold remaining
  split at h
  · exact absurd rfl h
  · simp [*]

theorem remaining_advance_lt_of_sees {p : Parser} {s : Symbol}
    (h : p.sees s = true) : p.advance.remaining < p.remaining := by
  apply remaining_advance_lt
  simp only [sees, decide_eq_true_eq] at h
  simp [h]

@[simp] theorem remaining_report (p : Parser) (e : SyntaxError) :
    (p.report e).remaining = p.remaining := rfl

@[simp] theorem remaining_expect (p : Parser) (e : Expected) :
    (p.expect e).remaining = p.remaining - 1 := by
  unfold expect
  split <;> simp [remaining_advance]

@[simp] theorem remaining_identifier (p : Parser) :
    p.identifier.2.remaining = p.remaining - 1 := remaining_expect p _

/-! ## Recovery -/

/-- Skips the rest of a malformed statement, through its `;`. Stops short
of a `}`, so that the block around it can still close. -/
def recover (p : Parser) : Parser :=
  if p.atBlockEnd then p
  else if p.sees .semi then p.advance
  else p.advance.recover
termination_by p.remaining
decreasing_by
  apply remaining_advance_lt
  rename_i h _
  simp only [atBlockEnd, atEnd, Bool.or_eq_true, decide_eq_true_eq, not_or] at h
  exact h.2

theorem remaining_recover_le (p : Parser) : p.recover.remaining ≤ p.remaining := by
  fun_induction recover p with
  | case1 => exact Nat.le_refl _
  | case2 => exact remaining_advance_le _
  | case3 p _ _ ih => exact Nat.le_trans ih (remaining_advance_le p)

/-- Outside a block's end recovery reads at least one token. -/
theorem remaining_recover_lt {p : Parser} (h : p.atBlockEnd = false) :
    p.recover.remaining < p.remaining := by
  have hlt : p.advance.remaining < p.remaining := by
    apply remaining_advance_lt
    simp only [atBlockEnd, atEnd, Bool.or_eq_false_iff, decide_eq_false_iff_not] at h
    exact h.2
  unfold recover
  simp only [h, Bool.false_eq_true, if_false]
  split
  · exact hlt
  · exact Nat.lt_of_le_of_lt (remaining_recover_le _) hlt

@[simp] theorem atBlockEnd_report (p : Parser) (e : SyntaxError) :
    (p.report e).atBlockEnd = p.atBlockEnd := rfl

end Parser

end AgentLang
