import AgentLang.Text.Blank
import AgentLang.Token

/-!
# From source text to tokens

Lexing never fails. Blanks are skipped; at any other character the
longest token that can start there is taken (`munch`), and its text alone
decides its kind (`TokenKind.ofText`). A character that starts no token
opens an unrecognised run, which reaches to the next blank and is left
for the parser to report.

Every token takes at least the character it starts with, so the scan ends
by the length of the text that is left.

The scanner itself is generated from patterns, and three things are assumed
of the generator: the longest match wins, a keyword goes before an
identifier of the same text, and `\s` matches the characters with the
property `White_Space`. The generated scanner gives up where no pattern
matches, and the run is then widened to the next blank; `munch` does both in
one step. The text of a token is not stored a second time beside the kind
that `TokenKind.ofText` reads off it.
-/

namespace AgentLang

/-- The kind of a token, from its text. -/
def TokenKind.ofText (s : String) : TokenKind :=
  match Keyword.ofText? s, Symbol.ofText? s with
  | some w, _ => .keyword w
  | none, some sign => .symbol sign
  | none, none =>
    match s.toList with
    | c :: _ =>
      if c.isAlpha then .ident s
      else if c.isDigit then .number s
      else .unknown s
    | [] => .unknown s

/-- Splits the longest token off a text that starts with the non-blank
`c`: the token's characters, and what follows it.

A word goes on through letters and digits, a number through digits, and a
query mark takes a second one. -/
def munch (c : Char) (cs : List Char) : List Char × List Char :=
  if c.isAlpha then
    (c :: cs.takeWhile Char.isAlphanum, cs.dropWhile Char.isAlphanum)
  else if c.isDigit then
    (c :: cs.takeWhile Char.isDigit, cs.dropWhile Char.isDigit)
  else if c = '?' then
    match cs with
    | '?' :: rest => (['?', '?'], rest)
    | _ => (['?'], cs)
  else if (Symbol.ofText? (String.singleton c)).isSome then
    ([c], cs)
  else
    (c :: cs.takeWhile (!isBlank ·), cs.dropWhile (!isBlank ·))

/-- Munching splits the text and loses nothing. -/
theorem munch_append (c : Char) (cs : List Char) :
    (munch c cs).1 ++ (munch c cs).2 = c :: cs := by
  unfold munch
  split
  · simp
  · split
    · simp
    · split
      · split <;> simp_all
      · split <;> simp

/-- What follows a token is shorter than the text it was taken from. -/
theorem length_munch_le (c : Char) (cs : List Char) :
    (munch c cs).2.length ≤ cs.length := by
  unfold munch
  have drop_le (p : Char → Bool) : (cs.dropWhile p).length ≤ cs.length :=
    (List.dropWhile_suffix p).length_le
  split
  · exact drop_le _
  · split
    · exact drop_le _
    · split
      · split <;> simp
      · split
        · exact Nat.le_refl _
        · exact drop_le _

/-- The tokens of the text that starts at `here`, the end of the file
apart. -/
def tokensFrom (here : Location) : List Char → List Token
  | [] => []
  | c :: cs =>
    if isBlank c then tokensFrom (here.step c) cs
    else
      let there := here.steps (munch c cs).1
      ⟨.ofText (String.ofList (munch c cs).1), ⟨here, there⟩⟩ ::
        tokensFrom there (munch c cs).2
termination_by text => text.length
decreasing_by
  · simp
  · have := length_munch_le c cs
    simp; omega

/-- The tokens of a source, and the empty span at its end. -/
structure TokenStream where
  tokens : List Token
  eof : Span
deriving Repr, DecidableEq

/-- All tokens in order, closed by the end of the file. -/
def TokenStream.toList (s : TokenStream) : List Token :=
  s.tokens ++ [⟨.eof, s.eof⟩]

/-- The end of a source. -/
def endOf (source : String) : Location := Location.start.steps source.toList

/-- Lexes a source. -/
def lex (source : String) : TokenStream :=
  ⟨tokensFrom .start source.toList, ⟨endOf source, endOf source⟩⟩

end AgentLang
