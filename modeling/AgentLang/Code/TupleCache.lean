import AgentLang.Code.TupleTable

/-!
# Tuple types by arity

A cache of tuple types keeps them twice: in the order in which they were first asked
for, each with its number, and by arity, so that a type is found without a search. There
is a place for each arity from 1 to 8, that of arity `n` at `n - 1`. Numbers are kept in
32 bits and arities in 8.

The two are written together, by `describe` only. A `TupleTable` is what remains of a
cache when it is known that they agree, and everything but the cache itself is said in
terms of it.
-/

namespace AgentLang

/-- A tuple type as it is kept. -/
structure CachedTuple where
  id : UInt32
  arity : UInt8
deriving Repr, DecidableEq

structure TupleCache where
  /-- The numbers of the types that there are, by arity. -/
  byArity : Vector (Option UInt32) maxTupleArity
  descriptors : List CachedTuple
deriving DecidableEq

namespace TupleCache

def empty : TupleCache := ⟨Vector.replicate maxTupleArity none, []⟩

/-- The number of the tuple type of a given arity, which enters the cache on first use. -/
def describe (c : TupleCache) (arity : Nat) : Except TupleError UInt32 × TupleCache :=
  if h : arity = 0 ∨ maxTupleArity < arity then (.error (.unsupportedArity arity), c)
  else
    have hplace : arity - 1 < maxTupleArity := by omega
    match c.byArity[arity - 1] with
    | some id => (.ok id, c)
    | none =>
      let id := c.descriptors.length.toUInt32
      (.ok id, ⟨c.byArity.set (arity - 1) (some id), c.descriptors ++ [⟨id, arity.toUInt8⟩]⟩)

/-- Writes the instruction that packs the topmost `arity` integers. -/
def create (c : TupleCache) (arity : Nat) (code : List Instr) :
    Except TupleError Unit × TupleCache × List Instr :=
  match c.describe arity with
  | (.error e, c') => (.error e, c', code)
  | (.ok id, c') => (.ok (), c', code ++ [.makeTuple id.toNat])

/-- Writes the instruction that replaces a tuple by its element at `index`. The type is
asked for before the index is looked at. -/
def project (c : TupleCache) (arity index : Nat) (code : List Instr) :
    Except TupleError Unit × TupleCache × List Instr :=
  match c.describe arity with
  | (.error e, c') => (.error e, c', code)
  | (.ok id, c') =>
    if arity ≤ index then (.error (.indexOutOfRange arity index), c', code)
    else (.ok (), c', code ++ [.tupleGet id.toNat index.toUInt8.toNat])

/-- The cache after it was asked for an arity. -/
def asked (c : TupleCache) (arity : Nat) : TupleCache := (c.describe arity).2

/-- The arities in the order of the types. -/
def table (c : TupleCache) : TupleTable := ⟨c.descriptors.map fun d => d.arity.toNat⟩

end TupleCache

end AgentLang
