import AgentLang.Source.Location

/-!
# An index of lines

A source is indexed by the bytes at which its lines start. The line of an offset is then
found by halving: it is the last one that starts at or before the offset. The column is
read off the text between the start of the line and the offset, or counted in bytes where
the two are not the ends of a text, because the offset is within a character or behind the
end.

Looking up an offset subtracts and indexes where nothing in the program text says that it
can. `location?` has no answer where that would go wrong; for an index and a source that
belong together there always is one, the one that `locate` gives.
-/

namespace AgentLang

/-! ## Texts by bytes -/

/-- The characters of a text that starts at byte `start`, each with the byte that it starts
at. -/
def charOffsets (start : Nat) : List Char → List (Nat × Char)
  | [] => []
  | c :: cs => (start, c) :: charOffsets (start + c.utf8Size) cs

/-- The text before and behind a byte; none if the byte is no boundary of characters. -/
def splitBytes? (cs : List Char) (bytes : Nat) : Option (List Char × List Char) :=
  if bytes = 0 then some ([], cs)
  else
    match cs with
    | [] => none
    | c :: rest =>
      if bytes < c.utf8Size then none
      else (splitBytes? rest (bytes - c.utf8Size)).map fun (before, after) => (c :: before, after)

/-- The text between two bytes, if both are boundaries in this order. -/
def slice? (source : String) (start stop : Nat) : Option (List Char) :=
  if stop < start then none
  else
    (splitBytes? source.toList start).bind fun (_, rest) =>
      (splitBytes? rest (stop - start)).map Prod.fst

/-! ## Halving -/

/-- How many elements at the front satisfy the predicate, if none behind them does. -/
def partitionPoint {α : Type} (p : α → Bool) (xs : Array α) : Nat :=
  search 0 xs.size (Nat.le_refl _)
where
  /-- All before `lo` satisfy the predicate, none from `hi` on does. -/
  search (lo hi : Nat) (h : hi ≤ xs.size) : Nat :=
    if hlt : lo < hi then
      let mid := (lo + hi) / 2
      have hmid : mid < xs.size := by omega
      if p xs[mid] then search (mid + 1) hi h
      else search lo mid (Nat.le_of_lt hmid)
    else lo
  termination_by hi - lo

/-! ## Lines -/

/-- The bytes at which lines start. -/
structure LineIndex where
  lineStarts : Array Nat
deriving Repr, DecidableEq

/-- The difference of two counts; none if it would be negative. -/
def checkedSub (m n : Nat) : Option Nat := if m < n then none else some (m - n)

namespace LineIndex

/-- The first line starts at byte 0, the others one byte behind a line break. -/
def ofSource (source : String) : LineIndex where
  lineStarts :=
    #[0] ++ ((charOffsets 0 source.toList).filter fun p => p.2 = '\n').toArray.map fun p => p.1 + 1

/-- The location of a byte offset in the source that was indexed. The offset from the start
of the line is taken whether or not it is needed. -/
def location? (index : LineIndex) (source : String) (offset : Nat) : Option Location := do
  let line := partitionPoint (fun start => start ≤ offset) index.lineStarts
  let lineStart ← index.lineStarts[← checkedSub line 1]?
  let bytes ← checkedSub offset lineStart
  let column := ((slice? source lineStart offset).map List.length).getD bytes
  return ⟨offset, line.toUInt32, column.toUInt32 + 1⟩

end LineIndex

end AgentLang
