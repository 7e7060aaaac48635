/-!
# Padded fields

Text brought to a least width, in characters. Text that is wide enough
already is left alone.
-/

namespace AgentLang

/-- Fills with `fill` on the left up to the width. -/
def padLeft (width : Nat) (fill : Char) (s : String) : String :=
  String.ofList (List.replicate (width - s.length) fill) ++ s

/-- Fills with `fill` on the right up to the width. -/
def padRight (width : Nat) (fill : Char) (s : String) : String :=
  s ++ String.ofList (List.replicate (width - s.length) fill)

end AgentLang
