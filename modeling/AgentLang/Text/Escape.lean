import AgentLang.Text.Invisible

/-!
# Quoted text

Text between double quotes, with everything that could be mistaken for the
quotes, or could not be seen, written as an escape.
-/

namespace AgentLang

/-- One character of a quoted text. -/
def escapeChar (c : Char) : String :=
  match c with
  | '\x00' => "\\0"
  | '\t' => "\\t"
  | '\r' => "\\r"
  | '\n' => "\\n"
  | '"' => "\\\""
  | '\\' => "\\\\"
  | _ =>
    if isInvisible c then
      "\\u\x7b" ++ String.ofList (Nat.toDigits 16 c.toNat) ++ "\x7d"
    else String.singleton c

/-- The text between quotes. -/
def escapeText (s : String) : String :=
  "\"" ++ String.join (s.toList.map escapeChar) ++ "\""

end AgentLang
