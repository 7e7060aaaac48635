import AgentLang.Proofs.Numbering
import AgentLang.Proofs.Simulation

/-!
# Projection undoes packing

Code that packs integers into a tuple names the type of the tuple by a number, and a
number means something only in a table of types. The table that the code was written
with goes on to grow, and the code is run against what has become of it. Since types
are only ever added at the end, packing and projection still find a type of their arity
under their numbers. So they undo each other, and what was on the stack below the packed
integers is not touched.
-/

namespace AgentLang

/-! ## Going on with a table -/

/-- The place of a listed type is its number. -/
theorem TupleTable.getElem?_of_mem {t : TupleTable} {id arity : Nat}
    (h : ⟨id, arity⟩ ∈ t.descriptors) : t.descriptors[id]? = some ⟨id, arity⟩ := by
  rw [getElem?_descriptors, mem_descriptors.mp h, Option.map_some]

namespace TupleWork

/-- What further steps make of the work. -/
def resume (w : TupleWork) (more : List TupleStep) : TupleWork :=
  more.foldl (fun w s => (w.step s).2) w

theorem descriptors_isPrefix_step (w : TupleWork) (s : TupleStep) :
    w.table.descriptors <+: (w.step s).2.table.descriptors := by
  rw [step_table]
  exact TupleTable.descriptors_isPrefix (w.table.arities_isPrefix_asked s.arity)

theorem descriptors_isPrefix_resume (more : List TupleStep) :
    ∀ w : TupleWork, w.table.descriptors <+: (w.resume more).table.descriptors := by
  induction more with
  | nil => exact fun w => List.prefix_refl _
  | cons s more ih => exact fun w => (w.descriptors_isPrefix_step s).trans (ih (w.step s).2)

/-- A type that is listed once is found under its number ever after. -/
theorem getElem?_resume {w : TupleWork} {id arity : Nat} (h : ⟨id, arity⟩ ∈ w.table.descriptors)
    (more : List TupleStep) :
    (w.resume more).table.descriptors[id]? = some ⟨id, arity⟩ :=
  TupleTable.getElem?_of_mem ((w.descriptors_isPrefix_resume more).subset h)

theorem exists_listed {w : TupleWork} {arity : Nat} (hw : w.table.Proper)
    (hs : Supported arity) : ∃ id, ⟨id, arity⟩ ∈ (w.table.asked arity).descriptors := by
  obtain ⟨id, hd⟩ := w.table.exists_describe_eq hs
  exact ⟨id, (hw.describe_eq_iff hs).mp hd⟩

end TupleWork

/-! ## Running the code -/

section Code

variable {tuples : List TupleDesc}
  {call : MethodId → List Value → Fields → Except Stop Unit × Fields}

theorem runCode_pushes (vs : List Int64) (rest : List Instr) (fields : Fields) :
    ∀ act : Activation,
      runCode tuples call (vs.map .push ++ rest) act fields =
        runCode tuples call rest
          { act with stack := (vs.map Value.int).reverse ++ act.stack } fields := by
  induction vs with
  | nil => exact fun act => rfl
  | cons v vs ih =>
      intro act
      have hpush : runCode tuples call (.push v :: (vs.map .push ++ rest)) act fields =
          runCode tuples call (vs.map .push ++ rest) (act.push (.int v)) fields := rfl
      rw [List.map_cons, List.cons_append, hpush, ih]
      simp [Activation.push]

/-- Packing takes the integers pushed last, as many as the tuple has elements. -/
theorem runCode_packing {id : TupleId} {elements : List Int64}
    (htuple : tuples[id]? = some ⟨id, elements.length⟩) (below : List Int64)
    (rest : List Instr) (act : Activation) (fields : Fields) :
    runCode tuples call ((below ++ elements).map .push ++ .makeTuple id :: rest) act fields =
      runCode tuples call rest
        { act with stack := .tuple elements :: ((below.map Value.int).reverse ++ act.stack) }
        fields := by
  rw [runCode_pushes, runCode_makeTuple tuples call htuple]
  simp

theorem evalCode_packing {id : TupleId} {elements : List Int64}
    (htuple : tuples[id]? = some ⟨id, elements.length⟩) (below : List Int64) :
    evalCode tuples ((below ++ elements).map .push ++ [.makeTuple id]) =
      .ok (below.map .int ++ [.tuple elements]) := by
  rw [evalCode, runCode_packing htuple]
  simp [runCode, Activation.start]

/-- The two numbers may differ, as long as both stand for tuples of that many elements. -/
theorem evalCode_projection {id id' : TupleId} {elements : List Int64} {index : Nat}
    {v : Int64} (htuple : tuples[id]? = some ⟨id, elements.length⟩)
    (htuple' : tuples[id']? = some ⟨id', elements.length⟩) (hv : elements[index]? = some v)
    (below : List Int64) :
    evalCode tuples ((below ++ elements).map .push ++ [.makeTuple id, .tupleGet id' index]) =
      .ok (below.map .int ++ [.int v]) := by
  rw [evalCode, runCode_packing htuple, runCode_tupleGet tuples _ htuple' hv rfl]
  simp [runCode, Activation.start]

end Code

/-! ## Packing and projection -/

/-- **Projection undoes packing.** Whatever a table of tuple types has been through, code that
pushes integers can be continued by packing the last of them, up to eight, and by taking an
element of the tuple. Against the table of that moment, and against what any further steps make
of it, the code up to the packing leaves the integers below and the tuple, and the whole code
the integers below and the element. -/
theorem projection_undoes_packing (history : List TupleStep) (below elements : List Int64)
    (index : Nat) (hindex : index < elements.length) (hsize : elements.length ≤ 8) :
    let pushed : TupleWork := ⟨(TupleWork.run history).table, (below ++ elements).map .push⟩
    ∃ packed taken,
      pushed.step (.create elements.length) = (.done, packed) ∧
      packed.step (.project elements.length index) = (.done, taken) ∧
      ∀ more,
        evalCode (packed.resume more).table.descriptors packed.code =
          .ok (below.map .int ++ [.tuple elements]) ∧
        evalCode (taken.resume more).table.descriptors taken.code =
          .ok (below.map .int ++ [.int elements[index]]) := by
  intro pushed
  have hs : Supported elements.length := ⟨Nat.lt_of_le_of_lt (Nat.zero_le _) hindex, hsize⟩
  have hproper : pushed.table.Proper := TupleWork.run_proper history
  obtain ⟨id, hid⟩ := TupleWork.exists_listed hproper hs
  let packed : TupleWork :=
    ⟨pushed.table.asked elements.length, pushed.code ++ [.makeTuple id]⟩
  obtain ⟨id', hid'⟩ := TupleWork.exists_listed (w := packed) (hproper.asked _) hs
  let taken : TupleWork :=
    ⟨packed.table.asked elements.length, packed.code ++ [.tupleGet id' index]⟩
  have hkept : ⟨id, elements.length⟩ ∈ taken.table.descriptors :=
    (TupleTable.descriptors_isPrefix (packed.table.arities_isPrefix_asked _)).subset hid
  refine ⟨packed, taken, ?_, ?_, fun more => ⟨?_, ?_⟩⟩
  · exact TupleWork.step_create hproper hs hid
  · exact TupleWork.step_project (w := packed) (hproper.asked _) hs hindex hid'
  · exact evalCode_packing (TupleWork.getElem?_resume hid more) below
  · have hcode : taken.code =
        (below ++ elements).map .push ++ [.makeTuple id, .tupleGet id' index] :=
      List.append_assoc ..
    rw [hcode]
    exact evalCode_projection (TupleWork.getElem?_resume hkept more)
      (TupleWork.getElem?_resume hid' more) (List.getElem?_eq_getElem hindex) below

/-- Triples got the number 0 from a projection that failed, and after the code is written
another type enters the table. -/
theorem middle_of_triple_taken :
    let later : List TupleDesc := [⟨0, 3⟩, ⟨1, 2⟩, ⟨2, 7⟩]
    evalCode later [.push (-5), .push 3, .push 1, .push 4, .makeTuple 0] =
      .ok [.int (-5), .tuple [3, 1, 4]] ∧
    evalCode later [.push (-5), .push 3, .push 1, .push 4, .makeTuple 0, .tupleGet 0 1] =
      .ok [.int (-5), .int 1] := by
  obtain ⟨packed, taken, hpacked, htaken, h⟩ :=
    projection_undoes_packing [.project 3 5, .create 0, .create 2] [-5] [3, 1, 4] 1
      (by decide) (by decide)
  obtain rfl := congrArg Prod.snd hpacked
  obtain rfl := congrArg Prod.snd htaken
  exact h [.describe 7]

end AgentLang
