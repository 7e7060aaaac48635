import AgentLang.FileAccess

/-!
# Volumes

A volume is a tree of files and directories with a working directory. It is
held as a table from places to what is there; a place lists the names on the
way down from the root. The working directory and those above it are always
there and are not in the table.

The operations take paths as text: a path that starts with a slash leads
from the root, any other from the working directory. They fail as a POSIX
system does: every step but the last has to be a directory, a trailing slash
asks for a directory, and a directory can be neither written nor removed as
a file.

A volume refuses nothing that the paths allow: what it has can be read, written
and removed, and there is room for everything. `Disk` adds refusals. There are
no links, so that different places hold different things.
-/

namespace AgentLang

/-- What a place holds. -/
inductive Node where
  | file (bytes : ByteArray)
  | directory

/-- The names on the way down from the root. -/
abbrev Place := List String

/-- A tree of files and directories. A place that is neither on the way to
the working directory nor listed is empty. -/
structure Volume where
  /-- The working directory. -/
  home : Place
  entries : List (Place × Node)

namespace Volume

/-- Nothing but a working directory. -/
def empty (home : Place) : Volume := ⟨home, []⟩

/-- What is at a place. The working directory and those above it are
directories. -/
def get? (v : Volume) (place : Place) : Option Node :=
  if place <+: v.home then some .directory else v.entries.lookup place

/-- Leaves a place empty. -/
def erase (v : Volume) (place : Place) : Volume :=
  ⟨v.home, v.entries.filter fun e => e.1 != place⟩

/-- Puts something at a place, instead of what was there. -/
def insert (v : Volume) (place : Place) (node : Node) : Volume :=
  ⟨v.home, (v.erase place).entries ++ [(place, node)]⟩

theorem lookup_filter_ne (entries : List (Place × Node)) (place other : Place) :
    (entries.filter fun e => e.1 != place).lookup other =
      if other = place then none else entries.lookup other := by
  induction entries with
  | nil => simp
  | cons e entries ih =>
      obtain ⟨p, node⟩ := e
      by_cases hp : p = place
      · subst hp
        by_cases ho : other = p
        · simp only [ho, if_true] at ih ⊢; simpa using ih
        · simp [ho] at ih ⊢; simp [List.lookup_cons, beq_eq_false_iff_ne.mpr ho, ih]
      · by_cases ho : other = p
        · subst ho; simp [hp]
        · simp only [List.filter_cons, bne_iff_ne, ne_eq, hp, not_false_eq_true, if_true,
            List.lookup_cons, beq_eq_false_iff_ne.mpr ho, ih]

/-- After a removal the place is empty and every other place is as before. -/
theorem get?_erase (v : Volume) {place : Place} (h : ¬ place <+: v.home) (other : Place) :
    (v.erase place).get? other = if other = place then none else v.get? other := by
  by_cases ho : other <+: v.home
  · have hne : other ≠ place := fun e => h (e ▸ ho)
    simp [get?, erase, ho, hne]
  · simp [get?, ho, erase, lookup_filter_ne]

/-- What is put at a place is there, and every other place is as before. -/
theorem get?_insert (v : Volume) {place : Place} (h : ¬ place <+: v.home) (node : Node)
    (other : Place) :
    (v.insert place node).get? other =
      if other = place then some node else v.get? other := by
  by_cases ho : other <+: v.home
  · have hne : other ≠ place := fun e => h (e ▸ ho)
    simp [get?, insert, ho, hne]
  · by_cases hp : other = place
    · subst hp
      simp [get?, ho, insert, erase, List.lookup_append, lookup_filter_ne]
    · simp [get?, ho, insert, erase, List.lookup_append, lookup_filter_ne, hp,
        List.lookup_cons, beq_eq_false_iff_ne.mpr hp]

/-! ## Paths -/

/-- The pieces of a path between its slashes. -/
def pieces : List Char → List (List Char)
  | [] => [[]]
  | c :: cs =>
    if c = '/' then [] :: pieces cs
    else
      match pieces cs with
      | [] => [[c]]
      | piece :: rest => (c :: piece) :: rest

/-- The steps of a path, empty pieces left out. -/
def steps (path : String) : List String :=
  ((pieces path.toList).filter (!·.isEmpty)).map String.ofList

/-- Where the first step of a path is taken. -/
def start (v : Volume) (path : String) : Place :=
  if path.toList.head? = some '/' then [] else v.home

/-- What a directory holds under a name. Names of more than 255 bytes cannot
be looked up. -/
def look (v : Volume) (here : Place) (name : String) : Except FileError (Option Node) :=
  if 255 < name.utf8ByteSize then .error .nameTooLong else .ok (v.get? (here ++ [name]))

/-- The directory that the steps lead to from `here`. The directory above
the root is the root. -/
def walk (v : Volume) : List String → Place → Except FileError Place
  | [], here => .ok here
  | "." :: rest, here => v.walk rest here
  | ".." :: rest, here => v.walk rest here.dropLast
  | name :: rest, here =>
    match v.look here name with
    | .error e => .error e
    | .ok none => .error .notFound
    | .ok (some (.file _)) => .error .notDirectory
    | .ok (some .directory) => v.walk rest (here ++ [name])

/-- What a path leads to. -/
inductive Destination where
  /-- A directory that is not named: the root, or the last step is `.` or
  `..`. -/
  | unnamed
  /-- A name in a directory, under which nothing need be, and whether the
  path ends in a slash. -/
  | entry (here : Place) (name : String) (slash : Bool)

/-- Where a path leads. -/
def destination (v : Volume) (path : String) : Except FileError Destination :=
  if path.toList.contains '\x00' then .error .nulInPath
  else if path.isEmpty then .error .notFound
  else if 4096 ≤ path.utf8ByteSize then .error .nameTooLong
  else
    match (steps path).getLast? with
    | none => .ok .unnamed
    | some last =>
      match v.walk (steps path).dropLast (v.start path) with
      | .error e => .error e
      | .ok here =>
        if last = "." ∨ last = ".." then .ok .unnamed
        else .ok (.entry here last (path.toList.getLast? = some '/'))

/-- The place of the file that a path names. Nothing need be there, but the path
does not end in a slash, and its last name is one that can be looked up. -/
def target? (v : Volume) (path : String) : Option Place :=
  match v.destination path with
  | .ok (.entry here name false) =>
    if 255 < name.utf8ByteSize then none else some (here ++ [name])
  | _ => none

/-! ## Operations -/

/-- The contents of the file that a path leads to. -/
def read (v : Volume) (path : String) : Except FileError ByteArray :=
  match v.destination path with
  | .error e => .error e
  | .ok .unnamed => .error .isDirectory
  | .ok (.entry here name slash) =>
    match v.look here name with
    | .error e => .error e
    | .ok none => .error .notFound
    | .ok (some .directory) => .error .isDirectory
    | .ok (some (.file bytes)) => if slash then .error .notDirectory else .ok bytes

/-- Makes a file, or replaces all that it held. A path that ends in a slash
is refused before the name is looked up. -/
def write (v : Volume) (path : String) (bytes : ByteArray) :
    Except FileError Unit × Volume :=
  match v.destination path with
  | .error e => (.error e, v)
  | .ok .unnamed => (.error .isDirectory, v)
  | .ok (.entry here name slash) =>
    if slash then (.error .isDirectory, v)
    else
      match v.look here name with
      | .error e => (.error e, v)
      | .ok (some .directory) => (.error .isDirectory, v)
      | .ok _ => (.ok (), v.insert (here ++ [name]) (.file bytes))

/-- Removes a file. -/
def remove (v : Volume) (path : String) : Except FileError Unit × Volume :=
  match v.destination path with
  | .error e => (.error e, v)
  | .ok .unnamed => (.error .isDirectory, v)
  | .ok (.entry here name slash) =>
    match v.look here name with
    | .error e => (.error e, v)
    | .ok none => (.error .notFound, v)
    | .ok (some .directory) => (.error .isDirectory, v)
    | .ok (some (.file _)) =>
      if slash then (.error .notDirectory, v) else (.ok (), v.erase (here ++ [name]))

/-- Takes the steps from `here` and makes the directories that are not yet
there, up to a step that cannot be taken. -/
def makeWay (v : Volume) : List String → Place → Volume
  | [], _ => v
  | "." :: rest, here => v.makeWay rest here
  | ".." :: rest, here => v.makeWay rest here.dropLast
  | name :: rest, here =>
    match v.look here name with
    | .ok none => (v.insert (here ++ [name]) .directory).makeWay rest (here ++ [name])
    | .ok (some .directory) => v.makeWay rest (here ++ [name])
    | _ => v

/-- Puts something at a path and makes the directories on the way to it. -/
def put (v : Volume) (path : String) : Node → Volume
  | .directory => v.makeWay (steps path) (v.start path)
  | .file bytes => ((v.makeWay (steps path).dropLast (v.start path)).write path bytes).2

/-- The path of an entry; that of a directory ends in a slash. -/
def renderEntry : Place × Node → String
  | (place, .file _) => String.intercalate "/" place
  | (place, .directory) => String.intercalate "/" place ++ "/"

/-- Everything in the working directory, with its path from there, in the
order of the paths. -/
def toList (v : Volume) : List (String × Node) :=
  let inside := v.entries.filter fun e => v.home.isPrefixOf e.1
  (inside.map fun e => (renderEntry (e.1.drop v.home.length, e.2), e.2)).mergeSort
    fun a b => decide (a.1 ≤ b.1)

end Volume

instance : FileAccess (StateM Volume) where
  read path := do return (← get).read path
  write path bytes := modifyGet fun v => v.write path bytes
  remove path := modifyGet fun v => v.remove path

end AgentLang
