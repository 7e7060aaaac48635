import AgentLang.Code.AgentType

/-!
# Tuple types

Beliefs are stored as tuples of integers, of 1 to 8 elements. A tuple type
enters the table when its arity is first asked for, and its place in the
table is its number, so numbers never change and beliefs of one arity share
a type. `TupleCache` says how such a table is stored: with the numbers
written out, and found by arity.

Making a tuple and taking an element of it ask for the type first. Taking
an element that the tuple does not have fails after the type has entered
the table.
-/

namespace AgentLang

/-- The most elements a tuple can have. -/
def maxTupleArity : Nat := 8

/-- Why there is no such tuple, or no such element. -/
inductive TupleError where
  | unsupportedArity (arity : Nat)
  | indexOutOfRange (arity index : Nat)
deriving Repr, DecidableEq

def TupleError.message : TupleError → String
  | unsupportedArity arity =>
    "tuples of arity " ++ toString arity ++
      " are not supported (arity must be 1 to 8)"
  | indexOutOfRange arity index =>
    "index " ++ toString index ++ " is out of range for a tuple of arity " ++
      toString arity

/-- The arities asked for so far, in the order of first use. -/
structure TupleTable where
  arities : List Nat
deriving Repr, DecidableEq

namespace TupleTable

def empty : TupleTable := ⟨[]⟩

/-- The table as types: the number of each is its place. -/
def descriptors (t : TupleTable) : List TupleDesc :=
  t.arities.zipIdx.map fun (arity, id) => ⟨id, arity⟩

/-- The number of the tuple type of a given arity, which enters the table on
first use. -/
def describe (t : TupleTable) (arity : Nat) : Except TupleError TupleId × TupleTable :=
  if arity = 0 ∨ maxTupleArity < arity then (.error (.unsupportedArity arity), t)
  else
    match t.arities.idxOf? arity with
    | some id => (.ok id, t)
    | none => (.ok t.arities.length, ⟨t.arities ++ [arity]⟩)

/-- The instruction that packs the topmost `arity` integers. -/
def create (t : TupleTable) (arity : Nat) : Except TupleError Instr × TupleTable :=
  match t.describe arity with
  | (.error e, t') => (.error e, t')
  | (.ok id, t') => (.ok (.makeTuple id), t')

/-- The instruction that replaces a tuple by its element at `index`. -/
def project (t : TupleTable) (arity index : Nat) :
    Except TupleError Instr × TupleTable :=
  match t.describe arity with
  | (.error e, t') => (.error e, t')
  | (.ok id, t') =>
    if arity ≤ index then (.error (.indexOutOfRange arity index), t')
    else (.ok (.tupleGet id index), t')

/-! ## What the table holds -/

/-- The type at a place has that place as its number. -/
theorem getElem?_descriptors (t : TupleTable) (id : Nat) :
    t.descriptors[id]? = t.arities[id]?.map fun arity => ⟨id, arity⟩ := by
  simp only [descriptors, List.getElem?_map, List.getElem?_zipIdx]
  cases t.arities[id]? <;> simp

/-- Only a tuple of 1 to 8 elements has a type. -/
theorem describe_of_unsupported {t : TupleTable} {arity : Nat}
    (h : arity = 0 ∨ maxTupleArity < arity) :
    t.describe arity = (.error (.unsupportedArity arity), t) := by
  simp [describe, h]

/-- The number that is handed out is the place of the arity, and types
enter at the end of the table, so that earlier numbers keep their meaning. -/
theorem describe_ok {t t' : TupleTable} {arity id : Nat}
    (h : t.describe arity = (.ok id, t')) :
    t'.arities[id]? = some arity ∧ t.arities <+: t'.arities := by
  unfold describe at h
  split at h
  · cases h
  · split at h
    · next i hi =>
      obtain ⟨rfl, rfl⟩ : i = id ∧ t = t' := by simpa using h
      obtain ⟨hlt, heq, -⟩ := List.idxOf?_eq_some_iff.mp hi
      refine ⟨?_, List.prefix_refl _⟩
      rw [List.getElem?_eq_getElem hlt]
      simpa using heq
    · obtain ⟨rfl, rfl⟩ : t.arities.length = id ∧ ⟨t.arities ++ [arity]⟩ = t' := by
        simpa using h
      refine ⟨?_, List.prefix_append _ _⟩
      simp

end TupleTable

end AgentLang
