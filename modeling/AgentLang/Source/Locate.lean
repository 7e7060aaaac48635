import AgentLang.Source.Location

/-!
# From byte offsets to locations

`locate` answers which line and column a byte offset of a source has. On
a character boundary, the end of the source included, the column counts
the characters since the last line break. An offset inside a character,
or past the end, still has a line (the one it would belong to) and takes
its column in bytes.

The scan keeps the location of the character it looks at and the offset
of the line it is on. Lexing advances the same locations by the same
`Location.step`, which is why the two agree. A program does not scan the
text for each offset but asks a `LineIndex`, which answers the same
(`location?_ofSource`).
-/

namespace AgentLang

/-- The location of an offset that is no character boundary: the column
counts bytes from the start of the line. -/
def Location.within (here : Location) (lineStart offset : Nat) : Location :=
  ⟨offset, here.line, (offset - lineStart).toUInt32 + 1⟩

/-- The rule of `locate` for a text that starts at `here`, on the line that
starts at byte `lineStart`. -/
def locateFrom (here : Location) (lineStart offset : Nat) : List Char → Location
  | [] => if offset = here.offset then here else here.within lineStart offset
  | c :: cs =>
    if offset = here.offset then here
    else if offset < here.offset + c.utf8Size then here.within lineStart offset
    else
      let next := here.step c
      locateFrom next (if c = '\n' then next.offset else lineStart) offset cs

/-- The location of a byte offset in a source. -/
def locate (source : String) (offset : Nat) : Location :=
  locateFrom .start 0 offset source.toList

end AgentLang
