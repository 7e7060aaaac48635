import AgentLang.Proofs.Simulation
import Mathlib.Data.List.Forall2

/-!
# Compiled agents do what their source means

`machine_agrees_with_meaning` compares the machine with the meaning of an
agent over whole histories: construction and then calls from outside, one
after the other. Members are run to their return by `simulates_body`; that
nested calls agree is shown by induction on the depth to which they nest
(`callMethod_agrees`), and that a history agrees by induction on its length
(`history_agrees`). Up to single calls this is shown for both ways to compile
an agent, histories are compared where the number of arguments is checked.
-/

namespace AgentLang

/-! ## Members -/

theorem find?_eq_some_of_unique {α : Type} {p : α → Bool} {l : List α} {x : α} (hx : x ∈ l)
    (hp : p x = true) (hunique : ∀ y ∈ l, p y = true → y = x) : l.find? p = some x := by
  cases hf : l.find? p with
  | none => exact absurd hp (List.find?_eq_none.mp hf x hx)
  | some y => rw [hunique y (List.mem_of_find?_eq_some hf) (List.find?_some hf)]

theorem findWithIndex?_eq_some {α : Type} (name : α → String) {l : List α}
    (hnodup : (l.map name).Nodup) {i : Nat} {x : α} (hx : l[i]? = some x) :
    findWithIndex? (fun y => name y == name x) l = some (i, x) := by
  have hfind : l.zipIdx.find? (fun y => name y.1 == name x) = some (x, i) := by
    refine find?_eq_some_of_unique (List.mem_zipIdx_iff_getElem?.mpr hx) (by simp) ?_
    rintro ⟨y, j⟩ hy hname
    have hj := List.mem_zipIdx_iff_getElem?.mp hy
    obtain rfl := index_unique hnodup hj hx (by simpa using hname)
    obtain rfl := Option.some.inj (hj.symm.trans hx)
    rfl
  exact congrArg (Option.map fun y => (y.2, y.1)) hfind

theorem Agent.find?_member {a : Agent} (hnodup : (a.members.map (·.name.name)).Nodup)
    {j : Nat} {m : Member} (hm : a.members[j]? = some m) :
    a.members.find? (·.name.name == m.name.name) = some m := by
  refine find?_eq_some_of_unique (List.mem_of_getElem? hm) (by simp) fun m' hm' hname => ?_
  obtain ⟨j', hj'⟩ := List.getElem?_of_mem hm'
  obtain rfl := index_unique hnodup hj' hm (by simpa using hname)
  exact Option.some.inj (hj'.symm.trans hm)

theorem Agent.WellScoped.beliefs_nodup {checkArity : Bool} {a : Agent}
    (h : a.WellScoped checkArity) : (a.beliefs.map (·.name.name)).Nodup :=
  (List.nodup_append.mp h.globals_nodup).1

theorem Agent.WellScoped.members_nodup {checkArity : Bool} {a : Agent}
    (h : a.WellScoped checkArity) : (a.members.map (·.name.name)).Nodup :=
  (List.nodup_append.mp h.globals_nodup).2.1

theorem Matches.start {checkArity : Bool} {d : Draft} (args : List Int64) (locals : Nat) :
    Matches checkArity d [] [] (.start (.receiver :: args.map Value.int) locals) :=
  ⟨fun _ hx => absurd hx List.not_mem_nil, rfl⟩

theorem bindParams_start (params : List Param) (scopes : Scopes) (tuples : TupleTable) :
    (Draft.bindParams 1 params (.start scopes tuples)).code = [] ∧
      (Draft.bindParams 1 params (.start scopes tuples)).tuples = tuples := by
  rw [Draft.bindParams_eq]
  exact ⟨rfl, rfl⟩

section Members

variable {checkArity : Bool} {a : Agent} {tuples : TupleTable} {type : AgentType}

/-- A compiled member, run from its first instruction to its return. -/
theorem runCode_member (hw : a.WellScoped checkArity)
    (harities : ∀ b ∈ a.beliefs, (1 ≤ b.arity ∧ b.arity ≤ 8) ∧ b.arity ∈ tuples.arities)
    {perform : Performance}
    {call : MethodId → List Value → Fields → Except Stop Unit × Fields}
    (hcalls : CallsAgree checkArity a perform call) {k : Nat} {m : Member} {method : MethodDef}
    (hm : a.members[k]? = some m) (hc : Assembly.CompiledMember a k tuples m method)
    {args : List Int64} (hargs : checkArity = true → args.length = m.params.length)
    {store : Store} {fields : Fields} (hr : Represents a store fields) :
    match execBody perform m.body (Env.bind [] (paramNames m.params) args) store with
    | (.ok _, store') => ∃ act' fields',
      runCode tuples.descriptors call method.code
          (.start (.receiver :: args.map Value.int) method.locals.length) fields =
        (.ok act', fields') ∧ act'.stack = [] ∧ Represents a store' fields'
    | (.error f, store') => ∃ stop fields',
      runCode tuples.descriptors call method.code
          (.start (.receiver :: args.map Value.int) method.locals.length) fields =
        (.error stop, fields') ∧ FailsLike checkArity f stop ∧ Represents a store' fields' := by
  obtain ⟨d, heff, rfl⟩ := hc
  have hframe : ((a.frame (k + 1)).map Prod.fst).Nodup := by
    rw [Agent.keys_frame, List.nodup_reverse]
    exact hw.globals_nodup.sublist
      (List.Sublist.append_left ((List.take_sublist _ _).map _) _)
  have hbody : Draft.BodyResolves checkArity (a.frame (k + 1)) (paramNames m.params) m.body :=
    (bodyResolves_iff hframe).mpr (hw.body_scoped k m hm)
  have ht := (Assembly.start_tracks (k := k + 1) harities).bindParams m.params 1
  rw [List.nil_append] at ht
  obtain ⟨-, code, hcode, hrun⟩ := simulates_body hw.beliefs_nodup hcalls ht heff hbody
  obtain ⟨hnil, htuples⟩ := bindParams_start m.params ⟨[a.frame (k + 1)]⟩ tuples
  rw [hnil, List.nil_append] at hcode
  rw [htuples] at hrun
  have hstart := hrun _ store _ fields [.ret]
    ((Matches.start args d.locals.length).bindParams m.params 1 args rfl hargs
      (hw.memberParams_nodup m (List.mem_of_getElem? hm)) (fun _ _ => rfl)) hr
    (by simp [Activation.start])
  simp only [Draft.finish, hcode]
  rcases hx : execBody perform m.body (Env.bind [] (paramNames m.params) args) store with
    ⟨f | env', store'⟩
  · rw [hx] at hstart
    exact hstart
  · rw [hx] at hstart
    obtain ⟨act', fields', heq, -, hshape, hr'⟩ := hstart
    exact ⟨act', fields', heq, hshape.stack, hr'⟩

/-- Calls agree at every depth. -/
theorem callMethod_agrees (hw : a.WellScoped checkArity) (hc : Compiled a tuples type)
    (depth : Nat) :
    CallsAgree checkArity a (a.performWith checkArity depth)
      (callMethod type.tuples type.methods depth) := by
  induction depth with
  | zero =>
      intro j m _ args store fields _ hr
      exact .error (.same .tooDeep) hr
  | succ depth ih =>
      intro j m hm args store fields hargs hr
      obtain ⟨method, hmethod, hcode⟩ := hc.methods_get j m hm
      have hrun := runCode_member hw hc.arities ih hm hcode hargs hr
      simp only [Agent.performWith, Agent.find?_member hw.members_nodup hm, if_pos hargs,
        callMethod, hmethod]
      rw [hc.tuples_eq] at *
      rcases hx : execBody (a.performWith checkArity depth) m.body
        (Env.bind [] (paramNames m.params) args) store with ⟨f | env', store'⟩
      · rw [hx] at hrun
        obtain ⟨stop, fields', heq, hf, hr'⟩ := hrun
        rw [heq]
        exact .error hf hr'
      · rw [hx] at hrun
        obtain ⟨act', fields', heq, -, hr'⟩ := hrun
        rw [heq]
        exact .ok hr'

/-- A member started from outside. -/
theorem invoke_agrees (hw : a.WellScoped checkArity) (hc : Compiled a tuples type) (depth : Nat)
    {j : Nat} {m : Member} {method : MethodDef} (hm : a.members[j]? = some m)
    (hcode : Assembly.CompiledMember a j tuples m method) {args : List Int64}
    (hargs : args.length = m.params.length) {store : Store} {fields : Fields}
    (hr : Represents a store fields) :
    ∃ r fields', Machine.invoke depth ⟨type, fields⟩ method args = (r, ⟨type, fields'⟩) ∧
      SameOutcome checkArity a (a.performWith checkArity (depth + 1) m.name.name args store)
        (r, fields') := by
  have hrun := runCode_member hw hc.arities (callMethod_agrees hw hc depth) hm hcode
    (fun _ => hargs) hr
  have hargc : m.params.length + 1 = method.argc := by
    obtain ⟨d, -, rfl⟩ := hcode
    simp [Draft.finish, MethodDef.argc, paramDefs]
  simp only [Agent.performWith, Agent.find?_member hw.members_nodup hm, hargs, implies_true,
    if_true, Machine.invoke, List.length_cons, List.length_map, hargc, ne_eq,
    not_true_eq_false, if_false, hc.tuples_eq]
  rw [hc.tuples_eq] at hrun
  rcases hx : execBody (a.performWith checkArity depth) m.body
    (Env.bind [] (paramNames m.params) args) store with ⟨f | env', store'⟩
  · rw [hx] at hrun
    obtain ⟨stop, fields', heq, hf, hr'⟩ := hrun
    rw [heq]
    exact ⟨_, _, rfl, .error hf hr'⟩
  · rw [hx] at hrun
    obtain ⟨act', fields', heq, hstack, hr'⟩ := hrun
    rw [heq]
    simp only [hstack, List.isEmpty_nil, if_true]
    exact ⟨_, _, rfl, .ok hr'⟩

end Members

/-! ## Construction -/

theorem initialStore_keys {env : Env} {beliefs : List Belief} :
    ∀ {store : Store}, initialStore env beliefs = .ok store →
      store.map Prod.fst = beliefs.map (·.name.name) := by
  induction beliefs with
  | nil =>
      intro store h
      obtain rfl := Except.ok.inj h
      rfl
  | cons b beliefs ih =>
      intro store h
      simp only [initialStore] at h
      split at h
      · cases h
      · split at h
        · cases h
        · next store' hstore =>
          obtain rfl := Except.ok.inj h
          simp [ih hstore]

/-- The fields from `index` on hold the values of the store, and the ones
before it are as they were. -/
structure Filled (index : Nat) (beliefs : List Belief) (store : Store)
    (fields fields' : Fields) : Prop where
  length : fields'.length = fields.length
  before : ∀ i < index, fields'[i]? = fields[i]?
  after : ∀ (i : Nat) (b : Belief), beliefs[i]? = some b →
    ∃ vs, store[i]? = some (b.name.name, vs) ∧
      fields'[index + i]? = some (.tuple vs) ∧ vs.length = b.arity

theorem Filled.cons {index : Nat} {b : Belief} {beliefs : List Belief} {vs : List Int64}
    {store : Store} {fields fields' : Fields} (hindex : index < fields.length)
    (hlen : vs.length = b.arity)
    (h : Filled (index + 1) beliefs store (fields.set index (.tuple vs)) fields') :
    Filled index (b :: beliefs) ((b.name.name, vs) :: store) fields fields' := by
  refine ⟨by simpa using h.length, fun i hi => ?_, fun i c hc => ?_⟩
  · rw [h.before i (by omega), List.getElem?_set_ne (by omega)]
  · cases i with
    | zero =>
        obtain rfl : b = c := by simpa using hc
        refine ⟨vs, rfl, ?_, hlen⟩
        rw [Nat.add_zero, h.before index (by omega), List.getElem?_set_self hindex]
    | succ i =>
        obtain ⟨ws, hws, hfield, hwlen⟩ := h.after i c (by simpa using hc)
        refine ⟨ws, by simpa using hws, ?_, hwlen⟩
        rw [← hfield]
        congr 1
        omega

/-- The code of initial values fills the fields from `index` on. -/
theorem runCode_init (tuples : TupleTable)
    (call : MethodId → List Value → Fields → Except Stop Unit × Fields)
    {known : List String} {beliefs : List Belief} :
    ∀ {index : Nat} {d d' : Draft}, Draft.InitEffects index beliefs d d' →
      d.tuples = tuples → (∀ b ∈ beliefs, ∀ x ∈ b.init.flatMap Expr.names, x ∈ known) →
      ∃ code, d'.code = d.code ++ code ∧
        ∀ (env : Env) (act : Activation) (fields : Fields) (rest : List Instr),
          Matches true d known env act → index + beliefs.length ≤ fields.length →
          match initialStore env beliefs with
          | .ok store => ∃ fields',
            runCode tuples.descriptors call (code ++ rest) act fields =
              runCode tuples.descriptors call rest act fields' ∧
            Filled index beliefs store fields fields'
          | .error f => ∃ stop fields',
            runCode tuples.descriptors call (code ++ rest) act fields =
              (.error stop, fields') ∧ SameFailure f stop := by
  induction beliefs with
  | nil =>
      rintro index d d' rfl rfl _
      refine ⟨[], by simp, fun env act fields rest _ _ => ?_⟩
      exact ⟨fields, rfl, rfl, fun _ _ => rfl, by simp⟩
  | cons b beliefs ih =>
      rintro index d d' ⟨id, hready, heff⟩ rfl hnames
      have hnames := List.forall_mem_cons.mp hnames
      obtain ⟨code, hcode, hrun⟩ := ih heff rfl hnames.2
      refine ⟨b.init.flatMap (·.code d.scopes) ++ .makeTuple id :: .storeField index :: code,
        by rw [hcode]; simp [Draft.emit], ?_⟩
      intro env act fields rest hm hlen
      simp only [List.length_cons] at hlen
      have hinit := runCode_exprs d.tuples.descriptors call b.init fields
        (.makeTuple id :: .storeField index :: (code ++ rest)) hm hnames.1
      simp only [initialStore, List.append_assoc, List.cons_append]
      cases hvs : evalAll env b.init with
      | error f =>
          rw [hvs] at hinit
          obtain ⟨stop, hf, heq⟩ := hinit
          exact ⟨stop, fields, heq, hf.strict⟩
      | ok vs =>
          rw [hvs] at hinit
          obtain ⟨hvlen, heq⟩ := hinit
          have hindex : index < fields.length := by omega
          have hpack := heq.trans (runCode_pack d.tuples.descriptors call
            (hvlen ▸ TupleTable.descriptor_of_describe hready) hindex rfl (code ++ rest))
          have hrest := hrun env act (fields.set index (.tuple vs)) rest (hm.emit _)
            (by rw [List.length_set]; omega)
          rw [hpack]
          cases hstore : initialStore env beliefs with
          | error f =>
              rw [hstore] at hrest
              exact hrest
          | ok store =>
              rw [hstore] at hrest
              obtain ⟨fields', heq', hfilled⟩ := hrest
              exact ⟨fields', heq', hfilled.cons hindex hvlen⟩

/-- The constructor sets the beliefs to their initial values. -/
theorem construct_agrees {checkArity : Bool} {a : Agent} {tuples : TupleTable}
    {type : AgentType} (hw : a.WellScoped checkArity) (hc : Compiled a tuples type)
    (depth : Nat) {args : List Int64}
    (hargs : args.length = a.params.length) :
    match a.create args with
    | .ok store => ∃ fields, Machine.construct depth type args = .ok ⟨type, fields⟩ ∧
      Represents a store fields
    | .error f => ∃ stop, Machine.construct depth type args = .error stop ∧
      SameFailure f stop := by
  obtain ⟨d, heff, hctor⟩ := hc.constructor_code
  obtain ⟨hnil, htuples⟩ := bindParams_start a.params ⟨[a.frame 0]⟩ tuples
  have hnames : ∀ b ∈ a.beliefs, ∀ x ∈ b.init.flatMap Expr.names,
      x ∈ paramNames a.params := by
    intro b hb x hx
    obtain ⟨e, he, hx⟩ := List.mem_flatMap.mp hx
    exact hw.init_bound b hb e he x hx
  obtain ⟨code, hcode, hrun⟩ := runCode_init tuples
    (callMethod type.tuples type.methods depth) heff htuples hnames
  rw [hnil, List.nil_append] at hcode
  have hargc : a.params.length + 1 = type.constructor.argc := by
    rw [hctor]
    simp [Draft.finish, MethodDef.argc, paramDefs]
  have hstart := hrun _ _ (List.replicate type.fields.length .unset) [.ret]
    ((Matches.start args d.locals.length).bindParams a.params 1 args rfl (fun _ => hargs)
      hw.params_nodup (fun _ _ => rfl))
    (by simp [hc.fields_length])
  rw [← hc.tuples_eq] at hstart
  simp only [Agent.create, hargs, if_true, Machine.construct, Machine.invoke,
    List.length_cons, List.length_map, hargc, ne_eq, not_true_eq_false, if_false]
  simp only [hctor, Draft.finish, hcode]
  cases hs : initialStore (Env.bind [] (paramNames a.params) args) a.beliefs with
  | error f =>
      rw [hs] at hstart
      obtain ⟨stop, fields', heq, hf⟩ := hstart
      rw [heq]
      exact ⟨stop, rfl, hf⟩
  | ok store =>
      rw [hs] at hstart
      obtain ⟨fields', heq, hfilled⟩ := hstart
      rw [heq]
      refine ⟨fields', rfl, by simpa [hc.fields_length] using hfilled.length, fun i b hb => ?_⟩
      obtain ⟨vs, hvs, hfield, hvlen⟩ := hfilled.after i b hb
      have hkeys : (store.map Prod.fst).Nodup := by
        rw [initialStore_keys hs]
        exact hw.beliefs_nodup
      refine ⟨vs, ?_, by simpa using hfield, hvlen⟩
      exact (lookup_eq_some_iff_mem hkeys).mpr (List.mem_of_getElem? hvs)

/-! ## Histories -/

/-- The outcome of each of some calls in turn, and the machine after it. -/
def Machine.history (depth : Nat) :
    Machine → List (String × List Int64) → List (Except Stop Unit × Machine)
  | _, [] => []
  | m, (name, args) :: calls =>
    let r := m.call depth name args
    r :: r.2.history depth calls

/-- Every belief has the same value on both sides. -/
def SameBeliefs (a : Agent) (store : Store) (m : Machine) : Prop :=
  ∀ b ∈ a.beliefs, ∃ vs, store.lookup b.name.name = some vs ∧
    m.field? b.name.name = some (.tuple vs)

/-- The same success or failure, and the same beliefs after it. -/
inductive SameStep (a : Agent) :
    Except Failure Unit × Store → Except Stop Unit × Machine → Prop
  | ok {store : Store} {m : Machine} : SameBeliefs a store m →
      SameStep a (.ok (), store) (.ok (), m)
  | error {f : Failure} {stop : Stop} {store : Store} {m : Machine} : SameFailure f stop →
      SameBeliefs a store m → SameStep a (.error f, store) (.error stop, m)

section Histories

variable {checkArity : Bool} {a : Agent} {tuples : TupleTable} {type : AgentType}

theorem map_eq_map_of_getElem? {α β : Type} {l : List α} {l' : List β} {f : α → String}
    {g : β → String} (hlen : l.length = l'.length)
    (h : ∀ (i : Nat) (y : β), l'[i]? = some y → ∃ x, l[i]? = some x ∧ f x = g y) :
    l.map f = l'.map g := by
  refine List.ext_getElem? fun i => ?_
  rw [List.getElem?_map, List.getElem?_map]
  cases hi : l'[i]? with
  | none =>
      rw [List.getElem?_eq_none_iff, ← hlen, ← List.getElem?_eq_none_iff] at hi
      rw [hi]
      rfl
  | some y =>
      obtain ⟨x, hx, hxy⟩ := h i y hi
      simp [hx, hxy]

theorem Represents.sameBeliefs (hw : a.WellScoped checkArity) (hc : Compiled a tuples type)
    {store : Store} {fields : Fields} (h : Represents a store fields) :
    SameBeliefs a store ⟨type, fields⟩ := by
  intro b hb
  obtain ⟨i, hi⟩ := List.getElem?_of_mem hb
  obtain ⟨vs, hvs, hfield, -⟩ := h.value i b hi
  obtain ⟨id, hid⟩ := hc.fields_get i b hi
  have hnames : type.fields.map FieldDef.name = a.beliefs.map (·.name.name) :=
    map_eq_map_of_getElem? hc.fields_length fun j c hj => by
      obtain ⟨id', hid'⟩ := hc.fields_get j c hj
      exact ⟨_, hid', rfl⟩
  have hfind : type.field? b.name.name = some (i, ⟨b.name.name, b.arity, some id⟩) :=
    findWithIndex?_eq_some FieldDef.name (hnames ▸ hw.beliefs_nodup) hid
  exact ⟨vs, hvs, by simp only [Machine.field?, hfind, hfield]⟩

/-- A call of a member by name. -/
theorem call_agrees (hw : a.WellScoped checkArity) (hc : Compiled a tuples type) (depth : Nat)
    {m : Member} (hm : m ∈ a.members) {args : List Int64}
    (hargs : args.length = m.params.length) {store : Store} {fields : Fields}
    (hr : Represents a store fields) :
    ∃ r fields', Machine.call depth ⟨type, fields⟩ m.name.name args = (r, ⟨type, fields'⟩) ∧
      SameOutcome checkArity a (a.performWith checkArity (depth + 1) m.name.name args store)
        (r, fields') := by
  obtain ⟨j, hj⟩ := List.getElem?_of_mem hm
  obtain ⟨method, hmethod, hcode⟩ := hc.methods_get j m hj
  have hnames : type.methods.map MethodDef.name = a.members.map (·.name.name) :=
    map_eq_map_of_getElem? hc.methods_length fun k n hk => by
      obtain ⟨method', hmethod', d, -, rfl⟩ := hc.methods_get k n hk
      exact ⟨_, hmethod', rfl⟩
  have hname : method.name = m.name.name := by
    obtain ⟨d, -, rfl⟩ := hcode
    rfl
  have hfind : type.method? m.name.name = some (j, method) := by
    rw [← hname]
    exact findWithIndex?_eq_some MethodDef.name (hnames ▸ hw.members_nodup) hmethod
  simp only [Machine.call, hfind]
  exact invoke_agrees hw hc depth hj hcode hargs hr

theorem history_agrees (hw : a.WellScoped true) (hc : Compiled a tuples type) (depth : Nat)
    {calls : List (String × List Int64)} :
    ∀ {store : Store} {fields : Fields}, Represents a store fields →
      (∀ c ∈ calls, ∃ m ∈ a.members, m.name.name = c.1 ∧ c.2.length = m.params.length) →
      List.Forall₂ (SameStep a) (a.history depth store calls)
        (Machine.history depth ⟨type, fields⟩ calls) := by
  induction calls with
  | nil =>
      intro store fields _ _
      exact .nil
  | cons c calls ih =>
      intro store fields hr hcalls
      obtain ⟨name, args⟩ := c
      obtain ⟨⟨m, hm, rfl, hargs⟩, hrest⟩ := List.forall_mem_cons.mp hcalls
      obtain ⟨r, fields', hcall, hsame⟩ := call_agrees hw hc depth hm hargs hr
      rw [Agent.performWith_true] at hsame
      simp only [Agent.history, Machine.history, hcall]
      rcases hp : a.perform (depth + 1) m.name.name args store with ⟨r', store'⟩
      rw [hp] at hsame
      cases hsame with
      | ok hr' => exact .cons (.ok (hr'.sameBeliefs hw hc)) (ih hr' hrest)
      | error hf hr' => exact .cons (.error hf.strict (hr'.sameBeliefs hw hc)) (ih hr' hrest)

/-- **A compiled agent does what its source means.** If generation reports
nothing, then for every depth of calls, every list of constructor arguments of
the declared length and every sequence of calls of members with the declared
number of arguments, construction and each call succeed or fail on the machine
as they do in the source, and every belief has the same value after each. -/
theorem machine_agrees_with_meaning {a : Agent} {type : AgentType}
    (h : generate true a = .ok (type, [])) (depth : Nat) (args : List Int64)
    (hargs : args.length = a.params.length) (calls : List (String × List Int64))
    (hcalls : ∀ c ∈ calls, ∃ m ∈ a.members,
      m.name.name = c.1 ∧ c.2.length = m.params.length) :
    match a.create args with
    | .error f => ∃ stop, Machine.construct depth type args = .error stop ∧ SameFailure f stop
    | .ok store => ∃ m, Machine.construct depth type args = .ok m ∧ SameBeliefs a store m ∧
      List.Forall₂ (SameStep a) (a.history depth store calls) (m.history depth calls) := by
  rcases generate_cases h with ⟨hw, -, tuples, hc⟩ | ⟨-, hne⟩
  · have hnew := construct_agrees hw hc depth hargs
    cases hs : a.create args with
    | error f =>
        rw [hs] at hnew
        exact hnew
    | ok store =>
        rw [hs] at hnew
        obtain ⟨fields, heq, hr⟩ := hnew
        exact ⟨⟨type, fields⟩, heq, hr.sameBeliefs hw hc, history_agrees hw hc depth hr hcalls⟩
  · exact absurd rfl hne

theorem counter_agrees : ∃ type store m, generate true counter = .ok (type, []) ∧
    counter.create [5] = .ok store ∧ Machine.construct 2 type [5] = .ok m ∧
    SameBeliefs counter store m ∧
    List.Forall₂ (SameStep counter)
      (counter.history 2 store [("add", [3]), ("share", [2]), ("share", [0])])
      (m.history 2 [("add", [3]), ("share", [2]), ("share", [0])]) := by
  obtain ⟨type, h⟩ := counter_silent
  have hagrees := machine_agrees_with_meaning h 2 [5] rfl
    [("add", [3]), ("share", [2]), ("share", [0])] (by decide)
  have hcreate : counter.create [5] = .ok [("count", [5, 0])] := by decide
  rw [hcreate] at hagrees
  obtain ⟨m, hm, hbeliefs, hsteps⟩ := hagrees
  exact ⟨type, _, m, h, hcreate, hm, hbeliefs, hsteps⟩

end Histories

-- The last call fails after its update, and the update stays.
example : counter.history 2 [("count", [5, 0])] [("add", [3]), ("share", [2]), ("share", [0])] =
    [(.ok (), [("count", [8, 1])]), (.ok (), [("count", [4, 2])]),
      (.error .divisionByZero, [("count", [0, 2])])] := by
  decide

end AgentLang
