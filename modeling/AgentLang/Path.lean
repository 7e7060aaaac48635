/-!
# File names in paths

A path is text; names in it are divided by `/`. The last name is the one
that an extension belongs to: slashes and `.` steps after it do not count,
while `.` and `..` on their own name a directory and have no extension.

The extension of a name is what follows its last dot, provided that
something stands before that dot; `.profile` has none.
-/

namespace AgentLang

namespace Path

/-- Removes the slashes and `.` steps at the end of a path that is given
back to front. -/
def trimEnd : List Char → List Char
  | '/' :: cs => trimEnd cs
  | '.' :: '/' :: cs => trimEnd cs
  | cs => cs

/-- A path that ends in a name: what stands before the name, and the name. -/
structure Named where
  parent : List Char
  name : List Char
  /-- Does anything, such as a slash, follow the name? -/
  hasTail : Bool
deriving Repr, DecidableEq

/-- The last name of a path, if it has one. -/
def named? (path : String) : Option Named :=
  let back := path.toList.reverse
  let trimmed := trimEnd back
  let name := (trimmed.takeWhile (· != '/')).reverse
  if name = [] ∨ name = ['.'] ∨ name = ['.', '.'] then none
  else
    some ⟨(trimmed.dropWhile (· != '/')).reverse, name, trimmed.length < back.length⟩

/-- The stem and the extension of a name. -/
def splitExtension (name : List Char) : List Char × Option (List Char) :=
  let back := name.reverse
  match back.dropWhile (· != '.') with
  | _ :: c :: stem => ((c :: stem).reverse, some (back.takeWhile (· != '.')).reverse)
  | _ => (name, none)

/-- The path with the extension of its last name replaced, or added if there
is none. A path without a name is left alone.

The old extension is cut off, up to its dot, before the new one is put on.
That turns a name such as `..x` into a step to the parent directory, which
takes no extension; but if something follows the name, the cut falls there
and the name stays one. -/
def withExtension (path extension : String) : String :=
  match named? path with
  | none => path
  | some n =>
    match splitExtension n.name with
    | (stem, none) => String.ofList (n.parent ++ stem) ++ "." ++ extension
    | (stem, some _) =>
      if stem = ['.'] ∧ n.hasTail = false then String.ofList (n.parent ++ ['.', '.'])
      else String.ofList (n.parent ++ stem) ++ "." ++ extension

end Path

end AgentLang
