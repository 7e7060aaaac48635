/-!
# Locations and spans

A `Location` is a point of the source text: a byte offset together with
the line and column a reader would give. Lines and columns count from 1,
and a column counts characters rather than bytes. A `Span` is the
half-open stretch between two locations; syntax tree nodes and
diagnostics carry one.

Locations are ordered by offset first, so that on locations of one source
the order is the order of the text. `Span.merge` is the smallest span
that covers both arguments in that order.
-/

namespace AgentLang

/-- A point of the source: byte offset, then line and column from 1. Lines
and columns are machine words. -/
structure Location where
  offset : Nat
  line : UInt32
  column : UInt32
deriving Repr, DecidableEq, Inhabited

/-- The first point of every source. -/
def Location.start : Location := ⟨0, 1, 1⟩

/-- The location that stands for "nowhere in the source". -/
def Location.nowhere : Location := ⟨0, 0, 0⟩

/-- Lexicographic order: offset, then line, then column. -/
def Location.le (a b : Location) : Bool :=
  a.offset < b.offset ||
    (a.offset == b.offset &&
      (a.line < b.line || (a.line == b.line && a.column ≤ b.column)))

/-- The earlier of two locations. -/
def Location.earlier (a b : Location) : Location := if a.le b then a else b

/-- The later of two locations. -/
def Location.later (a b : Location) : Location := if a.le b then b else a

/-- Written `line:column`. -/
def Location.render (l : Location) : String :=
  toString l.line.toNat ++ ":" ++ toString l.column.toNat

/-- The point after the character `c` that starts at `l`. A line break
starts the next line at column 1, anything else is one column wide. -/
def Location.step (l : Location) (c : Char) : Location :=
  if c = '\n' then ⟨l.offset + c.utf8Size, l.line + 1, 1⟩
  else ⟨l.offset + c.utf8Size, l.line, l.column + 1⟩

/-- The point after a run of characters that starts at `l`. -/
def Location.steps (l : Location) (cs : List Char) : Location :=
  cs.foldl Location.step l

@[simp] theorem Location.steps_nil (l : Location) : l.steps [] = l := rfl

@[simp] theorem Location.steps_cons (l : Location) (c : Char) (cs : List Char) :
    l.steps (c :: cs) = (l.step c).steps cs := rfl

theorem Location.steps_append (l : Location) (as bs : List Char) :
    l.steps (as ++ bs) = (l.steps as).steps bs := List.foldl_append

@[simp] theorem Location.step_offset (l : Location) (c : Char) :
    (l.step c).offset = l.offset + c.utf8Size := by
  unfold Location.step; split <;> rfl

/-- The half-open stretch of source `[start, end)`. -/
structure Span where
  start : Location
  stop : Location
deriving Repr, DecidableEq, Inhabited

/-- The span of what was never written. -/
def Span.nowhere : Span := ⟨.nowhere, .nowhere⟩

/-- The smallest span that covers both. -/
def Span.merge (a b : Span) : Span :=
  ⟨a.start.earlier b.start, a.stop.later b.stop⟩

/-- No byte lies inside the span. -/
def Span.isEmpty (s : Span) : Bool := s.stop.offset ≤ s.start.offset

/-- Written as the place where it starts. -/
def Span.render (s : Span) : String := s.start.render

end AgentLang
