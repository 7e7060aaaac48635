import AgentLang.Proofs.Agreement
import AgentLang.Proofs.Updates

/-!
# Safety of compiled agents

What holds of every machine that a compiled agent can come to be
(`Machine.Reachable`): it was constructed and then called any number of times,
by any names, with any arguments and to any depth, and a call that failed left
it wherever the failure happened.

The invariant is that the fields represent a store (`Reachable.represents`).
It says that every field is a tuple of its declared length, so compiled code
finds what it expects and cannot get stuck (`compiled_never_stuck`), and it
lets the updates of the source account for every change of a field
(`fields_hold_whole_updates`).

Calls that nest deeper than they may stop with `tooDeep`. That is the bound on
a run and no fault of the code.
-/

namespace AgentLang

/-! ## Reachable machines -/

/-- The machines that construction and calls lead to. -/
inductive Machine.Reachable (type : AgentType) : Machine → Prop
  | new {depth : Nat} {args : List Int64} {m : Machine} :
      Machine.construct depth type args = .ok m → Reachable type m
  | call {m : Machine} (depth : Nat) (name : String) (args : List Int64) :
      Reachable type m → Reachable type (m.call depth name args).2

theorem findWithIndex?_some {α : Type} {p : α → Bool} {l : List α} {i : Nat} {x : α}
    (h : findWithIndex? p l = some (i, x)) : l[i]? = some x ∧ p x = true := by
  obtain ⟨⟨y, j⟩, hy, heq⟩ := Option.map_eq_some_iff.mp h
  obtain ⟨rfl, rfl⟩ := Prod.mk.inj heq
  have hp := List.find?_some hy
  exact ⟨List.mem_zipIdx_iff_getElem?.mp (List.mem_of_find?_eq_some hy), hp⟩

section Reachable

variable {checkArity : Bool} {a : Agent} {tuples : TupleTable} {type : AgentType}

/-- Only the declared number of arguments constructs a machine. -/
theorem construct_args (hc : Compiled a tuples type) {depth : Nat} {args : List Int64}
    {m : Machine} (h : Machine.construct depth type args = .ok m) :
    args.length = a.params.length := by
  by_contra hne
  obtain ⟨d, -, hctor⟩ := hc.constructor_code
  have hslots : (Value.receiver :: args.map Value.int).length ≠ type.constructor.argc := by
    simpa [hctor, Draft.finish, MethodDef.argc, paramDefs] using hne
  simp only [Machine.construct, Machine.invoke, if_pos hslots] at h
  cases h

/-- A call from outside runs a member on the declared number of arguments, or
it changes nothing. -/
theorem call_cases (hc : Compiled a tuples type) (depth : Nat) (fields : Fields) (name : String)
    (args : List Int64) :
    (∃ m ∈ a.members, m.name.name = name ∧ args.length = m.params.length) ∨
      (Machine.call depth ⟨type, fields⟩ name args).2 = ⟨type, fields⟩ := by
  cases hfind : type.method? name with
  | none => exact Or.inr (by simp only [Machine.call, hfind])
  | some r =>
      obtain ⟨j, method⟩ := r
      obtain ⟨hj, hname⟩ := findWithIndex?_some hfind
      have hlt : j < a.members.length := hc.methods_length ▸ (List.getElem?_eq_some_iff.mp hj).1
      obtain ⟨method', hmethod, d, -, hcode⟩ := hc.methods_get j _ (List.getElem?_eq_getElem hlt)
      obtain rfl := Option.some.inj (hj.symm.trans hmethod)
      by_cases hargs : args.length = a.members[j].params.length
      · refine Or.inl ⟨a.members[j], List.getElem_mem hlt, ?_, hargs⟩
        rw [hcode] at hname
        simpa [Draft.finish] using hname
      · refine Or.inr ?_
        have hslots : (Value.receiver :: args.map Value.int).length ≠ method.argc := by
          simpa [hcode, Draft.finish, MethodDef.argc, paramDefs] using hargs
        simp only [Machine.call, hfind, Machine.invoke, if_pos hslots]

/-- A call from outside, on fields that represent a store: the fields then
represent what the executed updates made of the store. -/
theorem call_represents (hw : a.WellScoped checkArity) (hc : Compiled a tuples type)
    (depth : Nat) {store : Store} {fields : Fields} (hr : Represents a store fields)
    (name : String) (args : List Int64) :
    ∃ fields', (Machine.call depth ⟨type, fields⟩ name args).2 = ⟨type, fields'⟩ ∧
      (fields' = fields ∨
        Represents a (store.apply (a.updates checkArity (depth + 1) name args store)) fields') := by
  rcases call_cases hc depth fields name args with ⟨m, hm, rfl, hargs⟩ | hsame
  · obtain ⟨r, fields', hcall, hout⟩ := call_agrees hw hc depth hm hargs hr
    refine ⟨fields', by rw [hcall], Or.inr ?_⟩
    rw [← a.performWith_store checkArity (depth + 1) m.name.name args store]
    rcases hp : a.performWith checkArity (depth + 1) m.name.name args store with ⟨r', store'⟩
    rw [hp] at hout
    cases hout with
    | ok hr' => exact hr'
    | error _ hr' => exact hr'
  · exact ⟨fields, hsame, Or.inl rfl⟩

theorem Machine.Reachable.represents (hw : a.WellScoped checkArity)
    (hc : Compiled a tuples type) {m : Machine} (h : Machine.Reachable type m) :
    ∃ store fields, m = ⟨type, fields⟩ ∧ Represents a store fields := by
  induction h with
  | @new depth args m hnew =>
      have hcreate := construct_agrees hw hc depth (construct_args hc hnew)
      rw [hnew] at hcreate
      cases hs : a.create args with
      | error f =>
          rw [hs] at hcreate
          obtain ⟨stop, heq, -⟩ := hcreate
          cases heq
      | ok store =>
          rw [hs] at hcreate
          obtain ⟨fields, heq, hr⟩ := hcreate
          exact ⟨store, fields, Except.ok.inj heq, hr⟩
  | call depth name args _ ih =>
      obtain ⟨store, fields, rfl, hr⟩ := ih
      obtain ⟨fields', hcall, rfl | hr'⟩ := call_represents hw hc depth hr name args
      · exact ⟨store, fields', hcall, hr⟩
      · exact ⟨_, fields', hcall, hr'⟩

end Reachable

/-! ## Faults -/

/-- **Compiled code never gets stuck.** If generation reports nothing, then
construction with the declared number of arguments faults only with a division
by zero, and so does a call of a member, with the declared number of
arguments, on every machine that can be reached. Without `checkArity` a call
may also ask for an argument that an inner call did not pass. -/
theorem compiled_never_stuck {checkArity : Bool} {a : Agent} {type : AgentType}
    (h : generate checkArity a = .ok (type, [])) :
    (∀ (depth : Nat) (args : List Int64), args.length = a.params.length →
      ∀ fault, Machine.construct depth type args = .error (.fault fault) →
        fault = .divisionByZero) ∧
    ∀ m, Machine.Reachable type m → ∀ member ∈ a.members,
      ∀ (depth : Nat) (args : List Int64), args.length = member.params.length →
        ∀ fault, (m.call depth member.name.name args).1 = .error (.fault fault) →
          fault = .divisionByZero ∨ checkArity = false ∧ fault = .badArgumentSlot := by
  rcases generate_cases h with ⟨hw, -, tuples, hc⟩ | ⟨-, hne⟩
  · refine ⟨?_, ?_⟩
    · intro depth args hargs fault hfault
      have hnew := construct_agrees hw hc depth hargs
      rw [hfault] at hnew
      split at hnew
      · obtain ⟨fields, heq, -⟩ := hnew
        cases heq
      · obtain ⟨stop, heq, hf⟩ := hnew
        obtain rfl := Except.error.inj heq
        cases hf
        rfl
    · intro m hm member hmem depth args hargs fault hfault
      obtain ⟨store, fields, rfl, hr⟩ := hm.represents hw hc
      obtain ⟨r, fields', hcall, hout⟩ := call_agrees hw hc depth hmem hargs hr
      rw [hcall] at hfault
      obtain rfl : r = .error (.fault fault) := hfault
      generalize a.performWith checkArity (depth + 1) member.name.name args store = q at hout
      cases hout with
      | error hf _ =>
          cases hf with
          | same hf =>
              cases hf
              exact Or.inl rfl
          | missing hc => exact Or.inr ⟨hc, rfl⟩
  · exact absurd rfl hne

/-- A plan that holds the integer it is given, and one that calls it without
an integer. -/
def careless : Agent where
  name := ⟨"Careless", .nowhere⟩
  params := []
  beliefs := [⟨⟨"held", .nowhere⟩, [.number 0 .nowhere], .nowhere⟩]
  members := [
    ⟨.plan, ⟨"put", .nowhere⟩, [⟨⟨"n", .nowhere⟩, ⟨"int", .nowhere⟩, .nowhere⟩], [
      ⟨.update, ⟨⟨"held", .nowhere⟩, [.ident "n" .nowhere], .nowhere⟩, .nowhere⟩], .nowhere⟩,
    ⟨.plan, ⟨"refill", .nowhere⟩, [], [
      ⟨.update, ⟨⟨"held", .nowhere⟩, [.number 1 .nowhere], .nowhere⟩, .nowhere⟩,
      ⟨.invoke, ⟨⟨"put", .nowhere⟩, [], .nowhere⟩, .nowhere⟩], .nowhere⟩]
  span := .nowhere

theorem careless_runs : ∃ type m, generate false careless = .ok (type, []) ∧
    type.fields[0]? = some ⟨"held", 1, some 0⟩ ∧ Machine.construct 1 type [] = .ok m ∧
    m.fields = [.tuple [0]] ∧
    (m.call 1 "refill" []).1 = .error (.fault .badArgumentSlot) ∧
    (m.call 1 "refill" []).2.fields = [.tuple [1]] :=
  ⟨_, _, rfl, rfl, rfl, rfl, rfl, rfl⟩

/-- The second kind of fault does happen. -/
theorem careless_misses_argument : ∃ type m, generate false careless = .ok (type, []) ∧
    Machine.construct 1 type [] = .ok m ∧
    (m.call 1 "refill" []).1 = .error (.fault .badArgumentSlot) ∧
    ∀ (depth : Nat) (fault : Fault), (m.call depth "refill" []).1 = .error (.fault fault) →
      fault = .divisionByZero ∨ fault = .badArgumentSlot := by
  obtain ⟨type, m, htype, -, hm, -, hstop, -⟩ := careless_runs
  refine ⟨type, m, htype, hm, hstop, fun depth fault hfault => ?_⟩
  have hstuck := (compiled_never_stuck htype).2 m (.new hm) careless.members[1]
    (List.getElem_mem _) depth [] rfl fault hfault
  simpa using hstuck

/-! ## Fields -/

/-- The integers of a tuple. -/
def Value.integers : Value → List Int64
  | .tuple elements => elements
  | _ => []

/-- The values of the beliefs of a machine, by name. -/
def Machine.store (m : Machine) : Store :=
  List.zipWith (fun f v => (f.name, v.integers)) m.type.fields m.fields

/-- Every field is a tuple of as many integers as its belief has elements. -/
structure Machine.Whole (m : Machine) : Prop where
  length : m.fields.length = m.type.fields.length
  tuple : ∀ (i : Nat) (f : FieldDef), m.type.fields[i]? = some f →
    ∃ values, m.fields[i]? = some (.tuple values) ∧ values.length = f.arity

section Fields

variable {checkArity : Bool} {a : Agent} {tuples : TupleTable} {type : AgentType}
  {store : Store} {fields : Fields}

theorem Compiled.belief_of_field (hc : Compiled a tuples type) {i : Nat} {f : FieldDef}
    (hf : type.fields[i]? = some f) :
    ∃ b, a.beliefs[i]? = some b ∧ f.name = b.name.name ∧ f.arity = b.arity := by
  have hlt : i < a.beliefs.length := hc.fields_length ▸ (List.getElem?_eq_some_iff.mp hf).1
  obtain ⟨id, hid⟩ := hc.fields_get i _ (List.getElem?_eq_getElem hlt)
  obtain rfl := Option.some.inj (hf.symm.trans hid)
  exact ⟨a.beliefs[i], List.getElem?_eq_getElem hlt, rfl, rfl⟩

theorem Represents.whole (hc : Compiled a tuples type) (h : Represents a store fields) :
    Machine.Whole ⟨type, fields⟩ := by
  refine ⟨h.length.trans hc.fields_length.symm, fun i f hf => ?_⟩
  obtain ⟨b, hb, -, harity⟩ := hc.belief_of_field hf
  obtain ⟨values, -, hfield, hlen⟩ := h.value i b hb
  exact ⟨values, hfield, hlen.trans harity.symm⟩

/-- Fields that represent some store represent the one that is read off them. -/
theorem Represents.of_fields (hw : a.WellScoped checkArity) (hc : Compiled a tuples type)
    (h : Represents a store fields) : Represents a (Machine.store ⟨type, fields⟩) fields := by
  have hget : ∀ (i : Nat) (b : Belief), a.beliefs[i]? = some b → ∃ values,
      (Machine.store ⟨type, fields⟩)[i]? = some (b.name.name, values) ∧
      fields[i]? = some (.tuple values) ∧ values.length = b.arity := by
    intro i b hb
    obtain ⟨values, -, hfield, hlen⟩ := h.value i b hb
    obtain ⟨id, hid⟩ := hc.fields_get i b hb
    exact ⟨values, by rw [Machine.store, List.getElem?_zipWith, hid, hfield]; rfl,
      hfield, hlen⟩
  have hkeys : (Machine.store ⟨type, fields⟩).map Prod.fst = a.beliefs.map (·.name.name) :=
    map_eq_map_of_getElem? (by simp [Machine.store, hc.fields_length, h.length]) fun i b hb => by
      obtain ⟨values, hi, -⟩ := hget i b hb
      exact ⟨_, hi, rfl⟩
  refine ⟨h.length, fun i b hb => ?_⟩
  obtain ⟨values, hi, hfield, hlen⟩ := hget i b hb
  exact ⟨values, (lookup_eq_some_iff_mem (hkeys ▸ hw.beliefs_nodup)).mpr
    (List.mem_of_getElem? hi), hfield, hlen⟩

/-- What updates make of a field. -/
theorem Represents.updated (hc : Compiled a tuples type) {fields' : Fields}
    {updates : List Update} (h : Represents a store fields)
    (h' : Represents a (store.apply updates) fields') {i : Nat} {f : FieldDef}
    (hf : type.fields[i]? = some f) :
    fields'[i]? = fields[i]? ∨
      ∃ values, (f.name, values) ∈ updates ∧ fields'[i]? = some (.tuple values) := by
  obtain ⟨b, hb, hname, -⟩ := hc.belief_of_field hf
  obtain ⟨old, hold, hfield, -⟩ := h.value i b hb
  obtain ⟨new, hnew, hfield', -⟩ := h'.value i b hb
  rcases Store.lookup_apply hnew with hsame | hmem
  · obtain rfl := Option.some.inj (hold.symm.trans hsame)
    exact Or.inl (hfield'.trans hfield.symm)
  · exact Or.inr ⟨new, hname ▸ hmem, hfield'⟩

end Fields

/-- **Fields hold whole updates.** If generation reports nothing, then in every
machine that can be reached each field is a tuple of as many integers as its
belief has elements. After a call, by any name, with any arguments and
wherever it ended, a field is what it was before the call or exactly the tuple
of one update of its belief that the call executed. -/
theorem fields_hold_whole_updates {checkArity : Bool} {a : Agent} {type : AgentType}
    (h : generate checkArity a = .ok (type, [])) {m : Machine}
    (hm : Machine.Reachable type m) :
    m.Whole ∧ ∀ (depth : Nat) (name : String) (args : List Int64) (i : Nat) (f : FieldDef),
      type.fields[i]? = some f →
        (m.call depth name args).2.fields[i]? = m.fields[i]? ∨
        ∃ values, (f.name, values) ∈ a.updates checkArity (depth + 1) name args m.store ∧
          (m.call depth name args).2.fields[i]? = some (.tuple values) := by
  rcases generate_cases h with ⟨hw, -, tuples, hc⟩ | ⟨-, hne⟩
  · obtain ⟨store, fields, rfl, hr⟩ := hm.represents hw hc
    refine ⟨hr.whole hc, ?_⟩
    intro depth name args i f hf
    have hr := hr.of_fields hw hc
    obtain ⟨fields', hcall, rfl | hr'⟩ := call_represents hw hc depth hr name args
    · rw [hcall]
      exact Or.inl rfl
    · rw [hcall]
      exact hr.updated hc hr' hf
  · exact absurd rfl hne

/-- A call that fails half-way leaves the update that it executed. -/
theorem careless_keeps_update : ∃ type m, generate false careless = .ok (type, []) ∧
    Machine.construct 1 type [] = .ok m ∧ m.fields = [.tuple [0]] ∧ m.Whole ∧
    (m.call 1 "refill" []).1 = .error (.fault .badArgumentSlot) ∧
    ∃ values, ("held", values) ∈ careless.updates false 2 "refill" [] m.store ∧
      (m.call 1 "refill" []).2.fields[0]? = some (.tuple values) := by
  obtain ⟨type, m, htype, hfield, hm, hbefore, hstop, hafter⟩ := careless_runs
  obtain ⟨hwhole, hcall⟩ := fields_hold_whole_updates htype (.new hm)
  refine ⟨type, m, htype, hm, hbefore, hwhole, hstop, ?_⟩
  rcases hcall 1 "refill" [] 0 _ hfield with hsame | hnew
  · rw [hafter, hbefore] at hsame
    cases hsame
  · exact hnew

end AgentLang
