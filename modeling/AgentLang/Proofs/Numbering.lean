import AgentLang.Proofs.Linkage
import Mathlib.Data.List.Induction

/-!
# Histories of a table of tuple types

The table of tuple types is worked on by three kinds of steps: asking for the number
of a type, making a tuple and taking an element of one. The last two also write an
instruction. Any of them may be asked for a tuple that there is not, and taking an
element may fail after the type has entered the table.

After any history of such steps the table lists the supported arities in the order
of their first use (`arities_run`), whether or not the steps succeeded. A step finds
the number of its type by the place of the arity in the table (`Proper.describe_eq_iff`),
and a type that was listed once is listed at the same place ever after.
-/

namespace AgentLang

/-! ## Steps -/

inductive TupleStep where
  | describe (arity : Nat)
  | create (arity : Nat)
  | project (arity index : Nat)
deriving Repr, DecidableEq

def TupleStep.arity : TupleStep → Nat
  | describe arity => arity
  | create arity => arity
  | project arity _ => arity

inductive TupleAnswer where
  | number (id : TupleId)
  | done
  | refused (e : TupleError)
deriving Repr, DecidableEq

/-- The table, and the code that was written with its help. -/
structure TupleWork where
  table : TupleTable
  code : List Instr
deriving Repr, DecidableEq

namespace TupleWork

def empty : TupleWork := ⟨.empty, []⟩

/-- Writes the instruction, if there is one. -/
def write (w : TupleWork) : Except TupleError Instr × TupleTable → TupleAnswer × TupleWork
  | (.ok i, t) => (.done, ⟨t, w.code ++ [i]⟩)
  | (.error e, t) => (.refused e, ⟨t, w.code⟩)

def step (w : TupleWork) : TupleStep → TupleAnswer × TupleWork
  | .describe arity =>
    match w.table.describe arity with
    | (.ok id, t) => (.number id, ⟨t, w.code⟩)
    | (.error e, t) => (.refused e, ⟨t, w.code⟩)
  | .create arity => w.write (w.table.create arity)
  | .project arity index => w.write (w.table.project arity index)

/-- What the steps of a history make of nothing. -/
def run (history : List TupleStep) : TupleWork :=
  history.foldl (fun w s => (w.step s).2) empty

theorem run_concat (history : List TupleStep) (s : TupleStep) :
    run (history ++ [s]) = ((run history).step s).2 := by
  simp [run]

end TupleWork

/-! ## Supported arities -/

/-- There are tuples with that many elements. -/
def Supported (arity : Nat) : Prop := 1 ≤ arity ∧ arity ≤ 8

instance : DecidablePred Supported :=
  fun arity => inferInstanceAs (Decidable (1 ≤ arity ∧ arity ≤ 8))

/-- The supported arities of a history, in the order of their first use. -/
def firstUses (history : List TupleStep) : List Nat :=
  ((history.map TupleStep.arity).filter fun arity => decide (Supported arity)).eraseDups

/-- The table after it was asked for an arity. -/
def TupleTable.asked (t : TupleTable) (arity : Nat) : TupleTable := (t.describe arity).2

/-! ## Asking for a type -/

namespace TupleTable

variable {t : TupleTable} {arity id : Nat}

theorem mem_descriptors : ⟨id, arity⟩ ∈ t.descriptors ↔ t.arities[id]? = some arity := by
  rw [List.mem_iff_getElem?]
  constructor
  · rintro ⟨i, hi⟩
    obtain ⟨n, hn, heq⟩ := Option.map_eq_some_iff.mp (t.getElem?_descriptors i ▸ hi)
    obtain ⟨rfl, rfl⟩ := TupleDesc.mk.inj heq
    exact hn
  · intro h
    exact ⟨id, by rw [getElem?_descriptors, h, Option.map_some]⟩

theorem descriptors_isPrefix {t' : TupleTable} (h : t.arities <+: t'.arities) :
    t.descriptors <+: t'.descriptors := by
  obtain ⟨more, hmore⟩ := h
  rw [descriptors, descriptors, ← hmore, List.zipIdx_append, List.map_append]
  exact List.prefix_append _ _

/-- In a table without repetitions an arity has one number only. -/
theorem Proper.id_unique (h : t.Proper) {id' : Nat} (hd : ⟨id, arity⟩ ∈ t.descriptors)
    (hd' : ⟨id', arity⟩ ∈ t.descriptors) : id = id' := by
  rw [mem_descriptors] at hd hd'
  obtain ⟨hlt, -⟩ := List.getElem?_eq_some_iff.mp hd
  exact (List.getElem?_inj hlt h.nodup).mp (hd.trans hd'.symm)

/-- There are eight supported arities. -/
theorem Proper.length_le (h : t.Proper) : t.arities.length ≤ 8 := by
  have hsub : t.arities ⊆ List.range' 1 8 := fun n hn => by
    have := h.supported n hn
    rw [List.mem_range'_1]
    omega
  simpa using h.nodup.length_le_of_subset hsub

theorem Proper.asked (h : t.Proper) (arity : Nat) : (t.asked arity).Proper :=
  h.describe (r := (t.describe arity).1) rfl

theorem arities_isPrefix_asked (t : TupleTable) (arity : Nat) :
    t.arities <+: (t.asked arity).arities :=
  (describe_settles (r := (t.describe arity).1) rfl).2

theorem describe_of_not_supported (t : TupleTable) (h : ¬Supported arity) :
    t.describe arity = (.error (.unsupportedArity arity), t) :=
  describe_of_unsupported (by simp only [Supported, maxTupleArity] at h ⊢; omega)

theorem exists_describe_eq (t : TupleTable) (hs : Supported arity) :
    ∃ id, t.describe arity = (.ok id, t.asked arity) := by
  rcases t.describe_cases arity with ⟨id, t', -, hd, -⟩ | ⟨hn, -⟩
  · exact ⟨id, by rw [TupleTable.asked, hd]⟩
  · exact absurd hs hn

/-- The number that a supported arity gets is the one under which it is listed. -/
theorem Proper.describe_eq_iff (h : t.Proper) (hs : Supported arity) :
    t.describe arity = (.ok id, t.asked arity) ↔ ⟨id, arity⟩ ∈ (t.asked arity).descriptors := by
  constructor
  · intro hd
    exact mem_descriptors.mpr (describe_ok hd).1
  · intro hid
    obtain ⟨id', hd⟩ := t.exists_describe_eq hs
    rw [hd, (h.asked arity).id_unique hid (mem_descriptors.mpr (describe_ok hd).1)]

/-- Asking for a type that is listed changes nothing. -/
theorem Proper.describe_listed (h : t.Proper) (hd : ⟨id, arity⟩ ∈ t.descriptors) :
    t.describe arity = (.ok id, t) := by
  have hmem : arity ∈ t.arities := List.mem_of_getElem? (mem_descriptors.mp hd)
  obtain ⟨id', hid'⟩ := describe_of_mem (h.supported arity hmem) hmem
  rw [hid', h.id_unique hd (mem_descriptors.mpr (describe_ok hid').1)]

theorem arities_asked (t : TupleTable) (arity : Nat) :
    (t.asked arity).arities =
      if Supported arity ∧ arity ∉ t.arities then t.arities ++ [arity] else t.arities := by
  by_cases hs : Supported arity
  · have hn : ¬(arity = 0 ∨ maxTupleArity < arity) := by
      simp only [Supported, maxTupleArity] at hs ⊢
      omega
    cases hi : t.arities.idxOf? arity with
    | none => simp [asked, describe, hn, hi, hs, List.idxOf?_eq_none_iff.mp hi]
    | some id =>
      have hmem : arity ∈ t.arities := by
        by_contra hnot
        rw [List.idxOf?_eq_none_iff.mpr hnot] at hi
        cases hi
      simp [asked, describe, hn, hi, hmem]
  · simp [asked, t.describe_of_not_supported hs, hs]

end TupleTable

/-! ## A step -/

namespace TupleWork

open TupleTable

variable {w : TupleWork} {arity index id : Nat}

theorem step_of_not_supported (w : TupleWork) {s : TupleStep} (h : ¬Supported s.arity) :
    w.step s = (.refused (.unsupportedArity s.arity), w) := by
  have hd := w.table.describe_of_not_supported h
  cases s <;> simp only [TupleStep.arity] at hd ⊢
  case describe => simp only [step, hd]
  case create => simp only [step, create, hd, write]
  case project => simp only [step, project, hd, write]

theorem step_create (hw : w.table.Proper) (hs : Supported arity)
    (hid : ⟨id, arity⟩ ∈ (w.table.asked arity).descriptors) :
    w.step (.create arity) = (.done, ⟨w.table.asked arity, w.code ++ [.makeTuple id]⟩) := by
  simp only [step, create, (hw.describe_eq_iff hs).mpr hid, write]

theorem step_project (hw : w.table.Proper) (hs : Supported arity) (hlt : index < arity)
    (hid : ⟨id, arity⟩ ∈ (w.table.asked arity).descriptors) :
    w.step (.project arity index) =
      (.done, ⟨w.table.asked arity, w.code ++ [.tupleGet id index]⟩) := by
  simp only [step, project, (hw.describe_eq_iff hs).mpr hid, Nat.not_le.mpr hlt, if_false, write]

theorem step_table (w : TupleWork) (s : TupleStep) :
    (w.step s).2.table = w.table.asked s.arity := by
  cases s <;> simp only [step, create, project, TupleStep.arity, asked]
  all_goals rcases w.table.describe _ with ⟨e | id, t⟩
  case project.ok arity index => by_cases hle : arity ≤ index <;> simp [hle, write]
  all_goals rfl

end TupleWork

/-! ## What histories leave behind -/

theorem eraseDups_concat (l : List Nat) (n : Nat) :
    (l ++ [n]).eraseDups = if n ∈ l.eraseDups then l.eraseDups else l.eraseDups ++ [n] := by
  rw [List.eraseDups_append]
  by_cases hn : n ∈ l <;> simp [List.removeAll, List.eraseDups_cons, hn]

theorem firstUses_concat (history : List TupleStep) (s : TupleStep) :
    firstUses (history ++ [s]) =
      if Supported s.arity ∧ s.arity ∉ firstUses history then firstUses history ++ [s.arity]
      else firstUses history := by
  by_cases hs : Supported s.arity
  · have hlast : firstUses (history ++ [s]) =
        if s.arity ∈ firstUses history then firstUses history
        else firstUses history ++ [s.arity] := by
      rw [firstUses, firstUses, ← eraseDups_concat]
      simp [hs]
    simp only [hlast, hs, true_and, ite_not]
  · simp [firstUses, hs]

namespace TupleWork

open TupleTable

variable (history : List TupleStep)

theorem run_proper : (run history).table.Proper := by
  induction history using List.reverseRecOn with
  | nil => exact ⟨List.nodup_nil, List.forall_mem_nil _⟩
  | append_singleton history s ih =>
    rw [run_concat, step_table]
    exact ih.asked _

/-- Steps that fail count too, as far as their arity is supported. -/
theorem arities_run : (run history).table.arities = firstUses history := by
  induction history using List.reverseRecOn with
  | nil => rfl
  | append_singleton history s ih =>
    rw [run_concat, step_table, arities_asked, ih, firstUses_concat]

end TupleWork

end AgentLang
