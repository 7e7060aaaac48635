import AgentLang.Code.TupleCache
import AgentLang.Proofs.Numbering

/-!
# Tuple types keep their numbers

The cache of tuple types holds each type twice, by its arity and in a list. Whatever is
asked of it, the two agree (`TupleCache.Consistent`): there is a number at the place of an
arity if and only if the list has the type under that number. The types are at most eight,
one for each arity, so that neither numbers nor arities are cut by the widths they are
kept in.

A consistent cache answers as the list of its arities does, and leaves a consistent one
behind (`Consistent.describe_refines`, `CacheWork.step_refines`). So a history of steps
leaves the same arities as it does on a `TupleTable`, in the order of their first use.
-/

namespace AgentLang

theorem toNat_toUInt32_of_le {n : Nat} (h : n ≤ 8) : n.toUInt32.toNat = n :=
  UInt32.toNat_ofNat_of_lt' (Nat.lt_of_le_of_lt h (by decide))

theorem toNat_toUInt8_of_le {n : Nat} (h : n ≤ 8) : n.toUInt8.toNat = n :=
  UInt8.toNat_ofNat_of_lt' (Nat.lt_of_le_of_lt h (by decide))

theorem getElem?_concat_of_ne {α : Type} {l : List α} {x : α} {i : Nat} (h : i ≠ l.length) :
    (l ++ [x])[i]? = l[i]? := by
  grind

/-! ## Places by arity -/

namespace Supported

variable {arity : Nat}

theorem place_lt (hs : Supported arity) : arity - 1 < maxTupleArity := by
  obtain ⟨hpos, hmax⟩ := hs
  simp only [maxTupleArity]
  omega

theorem iff_not_unsupported : Supported arity ↔ ¬(arity = 0 ∨ maxTupleArity < arity) := by
  simp only [Supported, maxTupleArity]
  omega

end Supported

/-! ## The two structures -/

namespace TupleCache

/-- The number of a type is its place. -/
def Numbered (c : TupleCache) : Prop :=
  ∀ (i : Nat) (d : CachedTuple), c.descriptors[i]? = some d → d.id.toNat = i

/-- There is a number by an arity just if the type is under that number. -/
def Agrees (c : TupleCache) : Prop :=
  ∀ (k : Nat) (_ : k < maxTupleArity) (id : UInt32),
    c.byArity[k] = some id ↔ c.descriptors[id.toNat]? = some ⟨id, (k + 1).toUInt8⟩

/-- What every step keeps. -/
structure Consistent (c : TupleCache) : Prop where
  proper : c.table.Proper
  numbered : c.Numbered
  agrees : c.Agrees

theorem empty_consistent : empty.Consistent where
  proper := ⟨List.nodup_nil, List.forall_mem_nil _⟩
  numbered := by simp [Numbered, empty]
  agrees := by simp [Agrees, empty]

section

variable {c : TupleCache} {arity : Nat} {d : CachedTuple} {id : UInt32}

theorem getElem?_table (c : TupleCache) (i : Nat) :
    c.table.arities[i]? = c.descriptors[i]?.map fun d => d.arity.toNat :=
  List.getElem?_map ..

theorem Consistent.length_le (h : c.Consistent) : c.descriptors.length ≤ 8 := by
  simpa [table] using h.proper.length_le

theorem Consistent.supported (h : c.Consistent) (hd : d ∈ c.descriptors) :
    Supported d.arity.toNat :=
  h.proper.supported _ (List.mem_map_of_mem hd)

/-- A type is found by its arity under its number. -/
theorem Consistent.byArity_eq_iff (h : c.Consistent) (hs : Supported arity)
    (hplace : arity - 1 < maxTupleArity) :
    c.byArity[arity - 1] = some id ↔ c.descriptors[id.toNat]? = some ⟨id, arity.toUInt8⟩ := by
  rw [h.agrees (arity - 1) hplace id, Nat.sub_add_cancel hs.1]

theorem Consistent.mem_iff (h : c.Consistent) :
    d ∈ c.descriptors ↔ c.descriptors[d.id.toNat]? = some d := by
  refine ⟨fun hd => ?_, List.mem_of_getElem?⟩
  obtain ⟨i, hi⟩ := List.mem_iff_getElem?.mp hd
  rwa [h.numbered i d hi]

/-- Every type of the list is found by its arity. -/
theorem Consistent.found (h : c.Consistent) (hd : d ∈ c.descriptors)
    (hplace : d.arity.toNat - 1 < maxTupleArity) :
    c.byArity[d.arity.toNat - 1] = some d.id := by
  rw [h.byArity_eq_iff (h.supported hd) hplace, h.mem_iff.mp hd]
  exact congrArg (fun a => some (⟨d.id, a⟩ : CachedTuple)) UInt8.ofNat_toNat.symm

theorem Consistent.notMem_table (h : c.Consistent) (hplace : arity - 1 < maxTupleArity)
    (hnone : c.byArity[arity - 1] = none) : arity ∉ c.table.arities := by
  intro hmem
  obtain ⟨d, hd, rfl⟩ := List.mem_map.mp hmem
  simp [h.found hd hplace] at hnone

/-- There is one type of an arity. -/
theorem Consistent.eq_of_arity (h : c.Consistent) {d' : CachedTuple} (hd : d ∈ c.descriptors)
    (hd' : d' ∈ c.descriptors) (harity : d.arity = d'.arity) : d = d' := by
  have hplace := (h.supported hd).place_lt
  have hid := h.found hd hplace
  rw [harity] at hplace
  simp only [harity, h.found hd' hplace, Option.some.injEq] at hid
  cases d
  cases d'
  rw [CachedTuple.mk.injEq]
  exact ⟨hid.symm, harity⟩

end

/-! ## Asking for a type -/

section Describe

variable {c : TupleCache} {arity : Nat} {d : CachedTuple} {id : UInt32}

theorem describe_of_not_supported (c : TupleCache) (hs : ¬Supported arity) :
    c.describe arity = (.error (.unsupportedArity arity), c) :=
  dif_pos (Decidable.not_not.mp (mt Supported.iff_not_unsupported.mpr hs))

/-- A type that is new is added to both structures. -/
theorem Consistent.add (h : c.Consistent) (hs : Supported arity)
    (hplace : arity - 1 < maxTupleArity) (hnone : c.byArity[arity - 1] = none)
    (hproper : (⟨c.table.arities ++ [arity]⟩ : TupleTable).Proper) :
    Consistent ⟨c.byArity.set (arity - 1) (some c.descriptors.length.toUInt32),
      c.descriptors ++ [⟨c.descriptors.length.toUInt32, arity.toUInt8⟩]⟩ := by
  have hlength := toNat_toUInt32_of_le h.length_le
  have harity := toNat_toUInt8_of_le hs.2
  refine ⟨by simpa [table, harity] using hproper, fun i d hd => ?_, fun k hk id => ?_⟩
  · by_cases hi : i = c.descriptors.length
    · obtain rfl : (⟨_, _⟩ : CachedTuple) = d := by simpa [hi] using hd
      exact hlength.trans hi.symm
    · exact h.numbered i d (by rwa [getElem?_concat_of_ne hi] at hd)
  · have hold : c.byArity[k] = some id → id.toNat ≠ c.descriptors.length := fun hid => by
      obtain ⟨hlt, -⟩ := List.getElem?_eq_some_iff.mp ((h.agrees k hk id).mp hid)
      exact Nat.ne_of_lt hlt
    by_cases hid : id.toNat = c.descriptors.length
    · -- the new number: it is found by the new arity only
      obtain rfl : id = c.descriptors.length.toUInt32 :=
        UInt32.toNat_inj.mp (hid.trans hlength.symm)
      have hkey : arity - 1 = k ↔ arity.toUInt8 = (k + 1).toUInt8 := by
        have hk' := toNat_toUInt8_of_le (show k + 1 ≤ 8 from hk)
        rw [← UInt8.toNat_inj, harity, hk']
        have := hs.1
        omega
      simp only [Vector.getElem_set, hlength, List.getElem?_concat_length, Option.some.injEq,
        CachedTuple.mk.injEq, true_and, ← hkey]
      split
      · next hsame => exact iff_of_true rfl hsame
      · next hsame => exact iff_of_false (fun hk' => hold hk' hlength) hsame
    · -- an old number: it is not found by the new arity
      rw [getElem?_concat_of_ne hid, ← h.agrees k hk id]
      by_cases hsame : arity - 1 = k
      · subst hsame
        have hne : c.descriptors.length.toUInt32 ≠ id := fun heq => hid (heq ▸ hlength)
        simp [hnone, hne]
      · simp [hsame]

/-- A consistent cache answers as the arities in it do, and stays consistent. -/
theorem Consistent.describe_refines (h : c.Consistent) {r : Except TupleError UInt32}
    {c' : TupleCache} (hd : c.describe arity = (r, c')) :
    c.table.describe arity = (r.map UInt32.toNat, c'.table) ∧ c'.Consistent := by
  by_cases hs : Supported arity
  case neg =>
    rw [c.describe_of_not_supported hs] at hd
    obtain ⟨rfl, rfl⟩ := Prod.mk.inj hd
    exact ⟨c.table.describe_of_not_supported hs, h⟩
  have hn := Supported.iff_not_unsupported.mp hs
  have hplace := hs.place_lt
  have harity := toNat_toUInt8_of_le hs.2
  cases hfound : c.byArity[arity - 1] with
  | some id =>
    simp only [describe, dif_neg hn, hfound] at hd
    obtain ⟨rfl, rfl⟩ := Prod.mk.inj hd
    have hlisted : ⟨id.toNat, arity⟩ ∈ c.table.descriptors := by
      rw [TupleTable.mem_descriptors, getElem?_table, (h.byArity_eq_iff hs hplace).mp hfound]
      exact congrArg some harity
    exact ⟨h.proper.describe_listed hlisted, h⟩
  | none =>
    simp only [describe, dif_neg hn, hfound] at hd
    obtain ⟨rfl, rfl⟩ := Prod.mk.inj hd
    have hlength : c.table.arities.length = c.descriptors.length := List.length_map ..
    have hnew : c.table.describe arity =
        (.ok c.descriptors.length, ⟨c.table.arities ++ [arity]⟩) := by
      have hmem := h.notMem_table hplace hfound
      simp only [TupleTable.describe, if_neg hn, List.idxOf?_eq_none_iff.mpr hmem, hlength]
    refine ⟨?_, h.add hs hplace hfound (h.proper.describe hnew)⟩
    rw [hnew]
    simp [Except.map, table, harity, toNat_toUInt32_of_le h.length_le]

theorem Consistent.asked (h : c.Consistent) (arity : Nat) : (c.asked arity).Consistent :=
  (h.describe_refines (r := (c.describe arity).1) rfl).2

/-- A supported arity gets the number of its type, which is in the list from then on. -/
theorem Consistent.exists_describe_eq (h : c.Consistent) (hs : Supported arity) :
    ∃ d ∈ (c.asked arity).descriptors, d.arity.toNat = arity ∧
      c.describe arity = (.ok d.id, c.asked arity) := by
  obtain ⟨id, hid⟩ := c.table.exists_describe_eq hs
  rcases hd : c.describe arity with ⟨e | id', c'⟩
  all_goals obtain ⟨ht, h'⟩ := h.describe_refines hd
  · cases (Prod.mk.inj (hid.symm.trans ht)).1
  · have hplace := (TupleTable.describe_ok ht).1
    rw [getElem?_table, Option.map_eq_some_iff] at hplace
    obtain ⟨d, hd', harity⟩ := hplace
    obtain rfl : d.id = id' := UInt32.toNat_inj.mp (h'.numbered _ d hd')
    rw [TupleCache.asked, hd]
    exact ⟨d, List.mem_of_getElem? hd', harity, rfl⟩

/-- The number that a supported arity gets is the one under which it is listed. -/
theorem Consistent.describe_eq (h : c.Consistent) (hs : Supported arity)
    (hd : d ∈ (c.asked arity).descriptors) (harity : d.arity.toNat = arity) :
    c.describe arity = (.ok d.id, c.asked arity) := by
  obtain ⟨d', hd', harity', hdescribe⟩ := h.exists_describe_eq hs
  rwa [(h.asked arity).eq_of_arity hd hd' (UInt8.toNat_inj.mp (harity.trans harity'.symm))]

/-- Asking for a type that is listed changes nothing. -/
theorem Consistent.describe_listed (h : c.Consistent) (hd : d ∈ c.descriptors) :
    c.describe d.arity.toNat = (.ok d.id, c) := by
  have hs := h.supported hd
  have hfound := h.found hd hs.place_lt
  simp only [describe, dif_neg (Supported.iff_not_unsupported.mp hs), hfound]

/-- Types enter at the end. -/
theorem descriptors_isPrefix_asked (c : TupleCache) (arity : Nat) :
    c.descriptors <+: (c.asked arity).descriptors := by
  unfold asked describe
  split
  · exact List.prefix_refl _
  · simp only
    split
    · exact List.prefix_refl _
    · exact List.prefix_append _ _

end Describe

end TupleCache

/-! ## Steps -/

/-- The cache, and the code that was written with its help. -/
structure CacheWork where
  cache : TupleCache
  code : List Instr
deriving DecidableEq

namespace CacheWork

def empty : CacheWork := ⟨.empty, []⟩

/-- Tells how a step ended that may have written code. -/
def conclude : Except TupleError Unit × TupleCache × List Instr → TupleAnswer × CacheWork
  | (.ok (), c, code) => (.done, ⟨c, code⟩)
  | (.error e, c, code) => (.refused e, ⟨c, code⟩)

def step (w : CacheWork) : TupleStep → TupleAnswer × CacheWork
  | .describe arity =>
    match w.cache.describe arity with
    | (.ok id, c) => (.number id.toNat, ⟨c, w.code⟩)
    | (.error e, c) => (.refused e, ⟨c, w.code⟩)
  | .create arity => conclude (w.cache.create arity w.code)
  | .project arity index => conclude (w.cache.project arity index w.code)

/-- What the steps of a history make of nothing. -/
def run (history : List TupleStep) : CacheWork :=
  history.foldl (fun w s => (w.step s).2) empty

theorem run_concat (history : List TupleStep) (s : TupleStep) :
    run (history ++ [s]) = ((run history).step s).2 := by
  simp [run]

/-- The same work on the arities alone. -/
def toWork (w : CacheWork) : TupleWork := ⟨w.cache.table, w.code⟩

end CacheWork

/-- What a step answers and leaves behind. One that is refused writes nothing; only the
projection out of range has still asked for its type. -/
inductive TupleStep.Does (w : CacheWork) : TupleStep → TupleAnswer → CacheWork → Prop
  | unsupported {s : TupleStep} : ¬Supported s.arity →
      Does w s (.refused (.unsupportedArity s.arity)) w
  | described {arity : Nat} {d : CachedTuple} : Supported arity →
      d ∈ (w.cache.asked arity).descriptors → d.arity.toNat = arity →
      Does w (.describe arity) (.number d.id.toNat) ⟨w.cache.asked arity, w.code⟩
  | created {arity : Nat} {d : CachedTuple} : Supported arity →
      d ∈ (w.cache.asked arity).descriptors → d.arity.toNat = arity →
      Does w (.create arity) .done
        ⟨w.cache.asked arity, w.code ++ [.makeTuple d.id.toNat]⟩
  | projected {arity index : Nat} {d : CachedTuple} : Supported arity → index < arity →
      d ∈ (w.cache.asked arity).descriptors → d.arity.toNat = arity →
      Does w (.project arity index) .done
        ⟨w.cache.asked arity, w.code ++ [.tupleGet d.id.toNat index]⟩
  | outOfRange {arity index : Nat} : Supported arity → arity ≤ index →
      Does w (.project arity index) (.refused (.indexOutOfRange arity index))
        ⟨w.cache.asked arity, w.code⟩

namespace CacheWork

open TupleCache

variable {w w' : CacheWork} {s : TupleStep} {r : TupleAnswer}

theorem step_of_not_supported (w : CacheWork) (h : ¬Supported s.arity) :
    w.step s = (.refused (.unsupportedArity s.arity), w) := by
  have hd := w.cache.describe_of_not_supported h
  cases s <;> simp only [TupleStep.arity] at hd ⊢
  case describe => simp only [step, hd]
  case create => simp only [step, create, hd, conclude]
  case project => simp only [step, project, hd, conclude]

theorem toNat_toUInt8_of_lt {arity index : Nat} (hs : Supported arity) (hlt : index < arity) :
    index.toUInt8.toNat = index :=
  toNat_toUInt8_of_le (Nat.le_trans (Nat.le_of_lt hlt) hs.2)

/-- Nothing is left open by what a step has to do. -/
theorem step_iff_does (hw : w.cache.Consistent) : w.step s = (r, w') ↔ s.Does w r w' := by
  constructor
  · intro h
    by_cases hs : Supported s.arity
    case neg =>
      rw [w.step_of_not_supported hs] at h
      obtain ⟨rfl, rfl⟩ := Prod.mk.inj h
      exact .unsupported hs
    obtain ⟨d, hd, harity, hdescribe⟩ := hw.exists_describe_eq hs
    cases s <;> simp only [TupleStep.arity] at hs hd harity hdescribe
    case describe arity =>
      simp only [step, hdescribe] at h
      obtain ⟨rfl, rfl⟩ := Prod.mk.inj h
      exact .described hs hd harity
    case create arity =>
      simp only [step, create, hdescribe, conclude] at h
      obtain ⟨rfl, rfl⟩ := Prod.mk.inj h
      exact .created hs hd harity
    case project arity index =>
      simp only [step, project, hdescribe] at h
      by_cases hle : arity ≤ index <;> simp only [hle, if_true, if_false, conclude] at h
      · obtain ⟨rfl, rfl⟩ := Prod.mk.inj h
        exact .outOfRange hs hle
      · have hlt := Nat.lt_of_not_le hle
        rw [toNat_toUInt8_of_lt hs hlt] at h
        obtain ⟨rfl, rfl⟩ := Prod.mk.inj h
        exact .projected hs hlt hd harity
  · intro h
    cases h with
    | unsupported hs => exact w.step_of_not_supported hs
    | described hs hd harity => simp only [step, hw.describe_eq hs hd harity]
    | created hs hd harity => simp only [step, create, hw.describe_eq hs hd harity, conclude]
    | projected hs hlt hd harity =>
      simp only [step, project, hw.describe_eq hs hd harity, conclude, Nat.not_le.mpr hlt,
        if_false, toNat_toUInt8_of_lt hs hlt]
    | outOfRange hs hle =>
      obtain ⟨d, -, -, hdescribe⟩ := hw.exists_describe_eq hs
      simp only [step, project, hdescribe, conclude, hle, if_true]

theorem step_cache (w : CacheWork) (s : TupleStep) :
    (w.step s).2.cache = w.cache.asked s.arity := by
  cases s <;> simp only [step, create, project, TupleStep.arity, asked]
  all_goals rcases w.cache.describe _ with ⟨e | id, c⟩
  case project.ok arity index => by_cases hle : arity ≤ index <;> simp [hle, conclude]
  all_goals rfl

/-- A step on a consistent cache does what it does on the arities. -/
theorem step_refines (hw : w.cache.Consistent) (s : TupleStep) :
    w.toWork.step s = ((w.step s).1, (w.step s).2.toWork) := by
  by_cases hs : Supported s.arity
  case neg => rw [w.step_of_not_supported hs, w.toWork.step_of_not_supported hs]
  obtain ⟨d, -, -, hd⟩ := hw.exists_describe_eq hs
  have ht := (hw.describe_refines hd).1
  cases s <;> simp only [TupleStep.arity] at hs hd ht
  case describe => simp only [step, TupleWork.step, toWork, hd, ht, Except.map]
  case create =>
    simp only [step, create, conclude, TupleWork.step, TupleTable.create, TupleWork.write, toWork,
      hd, ht, Except.map]
  case project arity index =>
    simp only [step, project, TupleWork.step, TupleTable.project, toWork, hd, ht, Except.map]
    by_cases hle : arity ≤ index
    · simp only [hle, if_true, conclude, TupleWork.write]
    · simp only [hle, if_false, conclude, TupleWork.write,
        toNat_toUInt8_of_lt hs (Nat.lt_of_not_le hle)]

/-! ## Histories -/

variable (history more : List TupleStep)

theorem run_consistent : (run history).cache.Consistent := by
  induction history using List.reverseRecOn with
  | nil => exact empty_consistent
  | append_singleton history s ih =>
    rw [run_concat, step_cache]
    exact ih.asked _

theorem run_refines : (run history).toWork = TupleWork.run history := by
  induction history using List.reverseRecOn with
  | nil => rfl
  | append_singleton history s ih =>
    rw [run_concat, TupleWork.run_concat, ← ih, step_refines (run_consistent history)]

theorem descriptors_isPrefix_run :
    (run history).cache.descriptors <+: (run (history ++ more)).cache.descriptors := by
  induction more using List.reverseRecOn with
  | nil => simp
  | append_singleton more s ih =>
    rw [← List.append_assoc, run_concat, step_cache]
    exact ih.trans (descriptors_isPrefix_asked _ _)

/-- How cache and code stand after a history. That the arities of the types are those that
were asked for says that nothing is lost to the width they are kept in, and in the same way
numbers are places and projections take the element that was asked for. -/
structure Follows (w : CacheWork) (history : List TupleStep) : Prop where
  ids : w.cache.Numbered
  agree : w.cache.Agrees
  distinct : (w.cache.descriptors.map CachedTuple.arity).Nodup
  supported : ∀ d ∈ w.cache.descriptors, Supported d.arity.toNat
  in_order : w.cache.descriptors.map (fun d => d.arity.toNat) = firstUses history
  few : w.cache.descriptors.length ≤ 8
  steps : ∀ (s : TupleStep) (r : TupleAnswer) (w' : CacheWork),
    w.step s = (r, w') ↔ s.Does w r w'

theorem run_follows : (run history).Follows history := by
  have h := run_consistent history
  exact {
    ids := h.numbered
    agree := h.agrees
    distinct := List.Nodup.of_map UInt8.toNat <| by
      rw [List.map_map]
      exact h.proper.nodup
    supported := fun _ hd => h.supported hd
    in_order := by
      have harities := TupleWork.arities_run history
      rwa [← run_refines] at harities
    few := h.length_le
    steps := fun _ _ _ => step_iff_does h }

end CacheWork

/-- **Tuple types keep their numbers.** After any history cache and code stand as `Follows`
says. Whatever is done later, the types stay at the front of the list, and asking for one of
them gives its number and changes nothing. -/
theorem tuple_types_keep_numbers (history more : List TupleStep) :
    let earlier := CacheWork.run history
    let later := CacheWork.run (history ++ more)
    earlier.Follows history ∧ earlier.cache.descriptors <+: later.cache.descriptors ∧
      ∀ d ∈ earlier.cache.descriptors,
        later.step (.describe d.arity.toNat) = (.number d.id.toNat, later) := by
  intro earlier later
  have hfront : earlier.cache.descriptors <+: later.cache.descriptors :=
    CacheWork.descriptors_isPrefix_run history more
  refine ⟨CacheWork.run_follows history, hfront, fun d hd => ?_⟩
  have h : later.cache.Consistent := CacheWork.run_consistent (history ++ more)
  simp only [CacheWork.step, h.describe_listed (hfront.subset hd)]

/-- A projection that fails takes the first number for its type, a type that there is not
takes none. -/
def failedUses : List TupleStep := [.project 3 5, .create 0, .create 2]

theorem failed_use_keeps_number :
    (CacheWork.run failedUses).cache.descriptors = [⟨0, 3⟩, ⟨1, 2⟩] ∧
      ((CacheWork.run (failedUses ++ [.describe 7, .project 3 1])).step (.describe 3)).1 =
        .number 0 :=
  ⟨by decide, congrArg Prod.fst
    ((tuple_types_keep_numbers failedUses [.describe 7, .project 3 1]).2.2 ⟨0, 3⟩ (by decide))⟩

end AgentLang
