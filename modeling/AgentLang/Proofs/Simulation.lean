import AgentLang.Machine
import AgentLang.Proofs.Checker
import AgentLang.Proofs.Semantics

/-!
# Simulating bodies

The machine that runs a compiled body is compared with the meaning of the
body. Two relations carry the argument: `Matches` says that an activation
holds the environment in the slots that the scopes name, `Represents` that the
fields hold the store. The code between two drafts simulates an execution
(`Simulates`) if it takes matching states to matching states, or stops with
the same failure on fields that still represent the store.

Expressions are simulated by induction on the tree, bodies by induction on
their length (`simulates_body`). What a call does is left open here: it only
has to agree with the meaning of the member (`CallsAgree`).

All of it holds whether or not calls were checked for the number of their
arguments. Where they were not, an activation may lack arguments, and reading
one that is lacking is the one failure more (`FailsLike`).
-/

namespace AgentLang

/-! ## Integers -/

theorem quotient?_eq (x y : Int64) :
    quotient? x y = if y.toInt = 0 then none else integerOf? (x.toInt.tdiv y.toInt) := by
  have hzero : y.toInt = 0 ↔ y = 0 := by rw [← Int64.toInt_inj]; simp
  have hrange (hne : x ≠ Int64.minValue ∨ y ≠ -1) :
      (x / y).toInt = x.toInt.tdiv y.toInt := by
    rcases hne with hx | hy
    · exact Int64.toInt_div_of_ne_left x y hx
    · exact Int64.toInt_div_of_ne_right x y hy
  unfold quotient? integerOf?
  by_cases hy : y = 0
  · simp [hy]
  · simp only [hzero, hy, false_or, if_false]
    by_cases hmin : x = Int64.minValue ∧ y = -1
    · obtain ⟨rfl, rfl⟩ := hmin
      decide
    · have hne : x ≠ Int64.minValue ∨ y ≠ -1 := by
        by_cases hx : x = Int64.minValue
        · exact Or.inr fun h => hmin ⟨hx, h⟩
        · exact Or.inl hx
      have hle := Int64.le_toInt (x / y)
      have hge := Int64.toInt_le (x / y)
      rw [hrange hne] at hle hge
      rw [if_neg hmin, if_pos ⟨hle, hge⟩, ← hrange hne, Int64.ofInt_toInt]

/-- The operators of the machine compute what the operators mean. -/
theorem BinOp.apply?_eq_meaning (op : BinOp) (x y : Int64) :
    op.apply? x y = op.meaning x y := by
  cases op with
  | add => simp [meaning, BinOp.apply?]
  | sub => simp [meaning, BinOp.apply?]
  | mul => simp [meaning, BinOp.apply?]
  | div => exact quotient?_eq x y

/-! ## Matching states -/

/-- The failures that a compiled agent can have, on both sides. -/
inductive SameFailure : Failure → Stop → Prop
  | divisionByZero : SameFailure .divisionByZero (.fault .divisionByZero)
  | tooDeep : SameFailure .tooDeep .tooDeep

/-- The failures of an agent that was compiled with `checkArity` or without it.
Without it, a parameter may have got no argument. -/
inductive FailsLike (checkArity : Bool) : Failure → Stop → Prop
  | same {f : Failure} {stop : Stop} : SameFailure f stop → FailsLike checkArity f stop
  | missing : checkArity = false →
      FailsLike checkArity .meaningless (.fault .badArgumentSlot)

theorem FailsLike.strict {f : Failure} {stop : Stop} (h : FailsLike true f stop) :
    SameFailure f stop := by
  cases h with
  | same hf => exact hf
  | missing hc => cases hc

/-- What an activation holds for a binding. -/
def Activation.read (act : Activation) : Binding → Option Value
  | .argument slot => act.args[slot]?
  | .localSlot slot => act.locals[slot]?
  | .field .. => none
  | .callable .. => none

/-- The activation holds, for each known name, the integer that the
environment gives to it. Only without `checkArity` may a name have none, and
then it is a parameter whose slot is missing. -/
structure Matches (checkArity : Bool) (d : Draft) (known : List String) (env : Env)
    (act : Activation) : Prop where
  value : ∀ x ∈ known, ∃ b, d.scopes.lookup x = some b ∧
    act.read b = (env.lookup x).map Value.int ∧
    (env.lookup x = none → checkArity = false ∧ ∃ slot, b = .argument slot)
  receiver : act.args[0]? = some .receiver

/-- All but the contents of locals is kept. -/
structure SameShape (act act' : Activation) : Prop where
  args : act'.args = act.args
  locals : act'.locals.length = act.locals.length
  stack : act'.stack = act.stack

theorem SameShape.refl (act : Activation) : SameShape act act := ⟨rfl, rfl, rfl⟩

theorem SameShape.trans {act act' act'' : Activation} (h : SameShape act act')
    (h' : SameShape act' act'') : SameShape act act'' :=
  ⟨h'.args.trans h.args, h'.locals.trans h.locals, h'.stack.trans h.stack⟩

/-- The fields hold the values of the beliefs. -/
structure Represents (a : Agent) (store : Store) (fields : Fields) : Prop where
  length : fields.length = a.beliefs.length
  value : ∀ (i : Nat) (b : Belief), a.beliefs[i]? = some b →
    ∃ vs, store.lookup b.name.name = some vs ∧ fields[i]? = some (.tuple vs) ∧
      vs.length = b.arity

section Matches

variable {checkArity : Bool} {d : Draft} {known : List String} {env : Env}
  {act : Activation}

theorem Matches.stack (h : Matches checkArity d known env act) (stack : List Value) :
    Matches checkArity d known env { act with stack } := by
  refine ⟨fun x hx => ?_, h.receiver⟩
  obtain ⟨b, hb, hr, hnone⟩ := h.value x hx
  exact ⟨b, hb, by cases b <;> exact hr, hnone⟩

theorem Matches.emit (h : Matches checkArity d known env act) (code : List Instr) :
    Matches checkArity (d.emit code) known env act :=
  ⟨h.value, h.receiver⟩

/-- A name of the environment is bound to a slot that holds its integer. Only without
`checkArity` may the environment lack the name, and then its slot is missing. -/
def Activation.Supplies (checkArity : Bool) (scopes : Scopes) (env : Env) (act : Activation)
    (name : String) : Prop :=
  match env.lookup name with
  | some v => ∃ b, scopes.lookup name = some b ∧ act.read b = some (.int v)
  | none => checkArity = false ∧
    ∃ slot, scopes.lookup name = some (.argument slot) ∧ act.args[slot]? = none

@[simp] theorem Activation.read_push (act : Activation) (v : Value) (b : Binding) :
    (act.push v).read b = act.read b := by
  cases b <;> rfl

theorem Activation.Supplies.push {scopes : Scopes} {x : String}
    (h : act.Supplies checkArity scopes env x) (v : Value) :
    (act.push v).Supplies checkArity scopes env x := by
  simp only [Supplies, read_push]
  exact h

theorem Matches.supplies (h : Matches checkArity d known env act) {x : String}
    (hx : x ∈ known) : act.Supplies checkArity d.scopes env x := by
  obtain ⟨b, hb, hr, hnone⟩ := h.value x hx
  unfold Activation.Supplies
  cases hv : env.lookup x with
  | some v => exact ⟨b, hb, by simpa [hv] using hr⟩
  | none =>
      obtain ⟨hc, slot, rfl⟩ := hnone hv
      exact ⟨hc, slot, hb, by simpa [hv, Activation.read] using hr⟩

end Matches

/-! ## Expressions -/

section Code

variable (tuples : List TupleDesc)
  (call : MethodId → List Value → Fields → Except Stop Unit × Fields)

theorem runCode_load {act : Activation} {b : Binding} {v : Value} (h : act.read b = some v) :
    ∃ instr, b.loadInteger? = some instr ∧ ∀ (code : List Instr) (fields : Fields),
      runCode tuples call (instr :: code) act fields =
        runCode tuples call code (act.push v) fields := by
  cases b with
  | argument slot =>
      simp only [Activation.read] at h
      exact ⟨.loadArg slot, rfl, fun code fields => by
        simp [runCode, Activation.step, Activation.fetch, h, bind, Except.bind, pure,
          Except.pure]⟩
  | localSlot slot =>
      simp only [Activation.read] at h
      exact ⟨.loadLocal slot, rfl, fun code fields => by
        simp [runCode, Activation.step, Activation.fetch, h, bind, Except.bind, pure,
          Except.pure]⟩
  | field f n => cases h
  | callable m n => cases h

theorem runCode_missing {act : Activation} {slot : Nat} (h : act.args[slot]? = none)
    (code : List Instr) (fields : Fields) :
    runCode tuples call (.loadArg slot :: code) act fields =
      (.error (.fault .badArgumentSlot), fields) := by
  simp [runCode, Activation.step, Activation.fetch, h, bind, Except.bind]

theorem runCode_arith (op : BinOp) {act : Activation} {x y : Int64} {stack : List Value}
    (hs : act.stack = .int y :: .int x :: stack) (code : List Instr) (fields : Fields) :
    runCode tuples call (.arith op :: code) act fields =
      match op.meaning x y with
      | some v => runCode tuples call code { act with stack := .int v :: stack } fields
      | none => (.error (.fault .divisionByZero), fields) := by
  cases hv : op.apply? x y <;>
    simp [runCode, Activation.step, Activation.popInteger, Activation.pop, hs, bind,
      Except.bind, pure, Except.pure, hv, ← BinOp.apply?_eq_meaning, Activation.push,
      throw, throwThe, MonadExceptOf.throw]

/-- A name pushes the integer that it stands for, if it has one. -/
theorem runCode_name {checkArity : Bool} {scopes : Scopes} {env : Env} {act : Activation}
    {name : String} (h : act.Supplies checkArity scopes env name) (span : Span)
    (fields : Fields) (rest : List Instr) :
    match env.lookup name with
    | some v =>
      runCode tuples call ((Expr.ident name span).code scopes ++ rest) act fields =
        runCode tuples call rest (act.push (.int v)) fields
    | none => checkArity = false ∧
      runCode tuples call ((Expr.ident name span).code scopes ++ rest) act fields =
        (.error (.fault .badArgumentSlot), fields) := by
  unfold Activation.Supplies at h
  cases hv : env.lookup name with
  | some v =>
      rw [hv] at h
      obtain ⟨b, hb, hr⟩ := h
      obtain ⟨instr, hi, hrun⟩ := runCode_load tuples call hr
      simp only [Expr.code, hb, Option.bind_some, hi, Option.toList_some,
        List.singleton_append]
      exact hrun rest fields
  | none =>
      rw [hv] at h
      obtain ⟨hc, slot, hb, hr⟩ := h
      simp only [Expr.code, hb, Option.bind_some, Binding.loadInteger?_argument, Option.toList_some,
        List.singleton_append]
      exact ⟨hc, runCode_missing tuples call hr rest fields⟩

/-- The code of an expression pushes its value, or stops as the expression
does. -/
theorem runCode_expr {checkArity : Bool} {scopes : Scopes} {env : Env} (e : Expr) :
    ∀ {act : Activation} (fields : Fields) (rest : List Instr),
      (∀ x ∈ e.names, act.Supplies checkArity scopes env x) →
      match e.eval env with
      | .ok v =>
        runCode tuples call (e.code scopes ++ rest) act fields =
          runCode tuples call rest (act.push (.int v)) fields
      | .error f => ∃ stop, FailsLike checkArity f stop ∧
        runCode tuples call (e.code scopes ++ rest) act fields = (.error stop, fields) := by
  induction e with
  | ident name span =>
      intro act fields rest hn
      have hrun := runCode_name tuples call (hn name (by simp [Expr.names])) span fields rest
      cases hv : env.lookup name with
      | some v =>
          rw [hv] at hrun
          simpa only [Expr.eval, hv] using hrun
      | none =>
          rw [hv] at hrun
          simp only [Expr.eval, hv]
          exact ⟨_, .missing hrun.1, hrun.2⟩
  | number value span =>
      intro act fields rest hn
      simp [Expr.eval, Expr.code, runCode, Activation.step]
  | binary op left right span ihl ihr =>
      intro act fields rest hn
      simp only [Expr.names, List.mem_append] at hn
      have hl := ihl fields (right.code scopes ++ (.arith op :: rest))
        (fun x hx => hn x (Or.inl hx))
      simp only [Expr.eval, Expr.code, List.append_assoc, List.singleton_append]
      cases hx : left.eval env with
      | error f =>
          rw [hx] at hl
          exact hl
      | ok x =>
          rw [hx] at hl
          rw [hl]
          have hr := ihr fields (.arith op :: rest)
            (fun y hy => (hn y (Or.inr hy)).push (.int x))
          cases hy : right.eval env with
          | error f =>
              rw [hy] at hr
              exact hr
          | ok y =>
              rw [hy] at hr
              simp only
              rw [hr, runCode_arith tuples call op rfl]
              cases op.meaning x y with
              | some v => rfl
              | none => exact ⟨_, .same .divisionByZero, rfl⟩

theorem runCode_exprs {checkArity : Bool} {d : Draft} {known : List String} {env : Env}
    (es : List Expr) :
    ∀ {act : Activation} (fields : Fields) (rest : List Instr),
      Matches checkArity d known env act → (∀ x ∈ es.flatMap Expr.names, x ∈ known) →
      match evalAll env es with
      | .ok vs => vs.length = es.length ∧
        runCode tuples call (es.flatMap (·.code d.scopes) ++ rest) act fields =
          runCode tuples call rest
            { act with stack := (vs.map Value.int).reverse ++ act.stack } fields
      | .error f => ∃ stop, FailsLike checkArity f stop ∧
        runCode tuples call (es.flatMap (·.code d.scopes) ++ rest) act fields =
          (.error stop, fields) := by
  induction es with
  | nil =>
      intro act fields rest hm hn
      simp [evalAll]
  | cons e es ih =>
      intro act fields rest hm hn
      simp only [List.flatMap_cons, List.mem_append] at hn
      have he := runCode_expr tuples call e fields (es.flatMap (·.code d.scopes) ++ rest)
        (fun x hx => hm.supplies (hn x (Or.inl hx)))
      simp only [evalAll, List.flatMap_cons, List.append_assoc]
      cases hv : e.eval env with
      | error f =>
          rw [hv] at he
          exact he
      | ok v =>
          rw [hv] at he
          have hes := ih fields rest (hm.stack (.int v :: act.stack))
            (fun x hx => hn x (Or.inr hx))
          cases hvs : evalAll env es with
          | error f =>
              rw [hvs] at hes
              obtain ⟨stop, hf, heq⟩ := hes
              exact ⟨stop, hf, he.trans heq⟩
          | ok vs =>
              rw [hvs] at hes
              refine ⟨by simp [hes.1], he.trans (hes.2.trans ?_)⟩
              simp

/-! ## The stack -/

theorem popIntegers_eq (vs : List Int64) :
    ∀ (act : Activation) (above : List Int64) (stack : List Value),
      act.stack = vs.map Value.int ++ stack →
      Activation.popIntegers vs.length above act =
        .ok (vs.reverse ++ above, { act with stack }) := by
  induction vs with
  | nil =>
      rintro act above stack hs
      cases act
      simp_all [Activation.popIntegers]
  | cons v vs ih =>
      intro act above stack hs
      simp only [List.map_cons, List.cons_append] at hs
      simp only [List.length_cons, Activation.popIntegers, Activation.popInteger,
        Activation.pop, hs, bind, Except.bind, pure, Except.pure]
      have h := ih { act with stack := vs.map Value.int ++ stack } (v :: above) stack rfl
      simpa using h

theorem popValues_eq (vs : List Value) :
    ∀ (act : Activation) (above stack : List Value), act.stack = vs ++ stack →
      Activation.popValues vs.length above act =
        .ok (vs.reverse ++ above, { act with stack }) := by
  induction vs with
  | nil =>
      rintro act above stack hs
      cases act
      simp_all [Activation.popValues]
  | cons v vs ih =>
      intro act above stack hs
      simp only [List.cons_append] at hs
      simp only [List.length_cons, Activation.popValues, Activation.pop, hs, bind,
        Except.bind]
      have h := ih { act with stack := vs ++ stack } (v :: above) stack rfl
      simpa using h

/-- Packing the topmost integers. -/
theorem runCode_makeTuple {id : TupleId} {vs : List Int64} {act : Activation}
    {stack : List Value} (htuple : tuples[id]? = some ⟨id, vs.length⟩)
    (hs : act.stack = (vs.map Value.int).reverse ++ stack) (fields : Fields)
    (rest : List Instr) :
    runCode tuples call (.makeTuple id :: rest) act fields =
      runCode tuples call rest { act with stack := .tuple vs :: stack } fields := by
  have hpop := popIntegers_eq vs.reverse act [] stack (by rw [hs, List.map_reverse])
  rw [List.length_reverse, List.reverse_reverse, List.append_nil] at hpop
  simp [runCode, Activation.step, Activation.fetch, htuple, hpop, bind, Except.bind, pure,
    Except.pure, Activation.push]

/-- Taking an element of the topmost tuple. -/
theorem runCode_tupleGet {id : TupleId} {vs : List Int64} {act : Activation}
    {stack : List Value} {index : Nat} {v : Int64}
    (htuple : tuples[id]? = some ⟨id, vs.length⟩) (hv : vs[index]? = some v)
    (hs : act.stack = .tuple vs :: stack) (fields : Fields) (rest : List Instr) :
    runCode tuples call (.tupleGet id index :: rest) act fields =
      runCode tuples call rest { act with stack := .int v :: stack } fields := by
  simp [runCode, Activation.step, Activation.fetch, htuple, hv, hs, bind, Except.bind, pure,
    Except.pure, Activation.push, Activation.pop]

/-- Packing integers and storing the tuple. -/
theorem runCode_pack {id : TupleId} {f : FieldId} {vs : List Int64} {act : Activation}
    {fields : Fields} {stack : List Value} (htuple : tuples[id]? = some ⟨id, vs.length⟩)
    (hf : f < fields.length) (hs : act.stack = (vs.map Value.int).reverse ++ stack)
    (rest : List Instr) :
    runCode tuples call (.makeTuple id :: .storeField f :: rest) act fields =
      runCode tuples call rest { act with stack } (fields.set f (.tuple vs)) := by
  rw [runCode_makeTuple tuples call htuple hs]
  simp [runCode, Activation.step, bind, Except.bind, pure, Except.pure, Activation.pop,
    Activation.overwrite, hf]

/-- Taking an element of a stored tuple into a local. -/
theorem runCode_project {id : TupleId} {f : FieldId} {vs : List Int64} {act : Activation}
    {fields : Fields} {index slot : Nat} {v : Int64}
    (htuple : tuples[id]? = some ⟨id, vs.length⟩) (hf : fields[f]? = some (.tuple vs))
    (hv : vs[index]? = some v) (hslot : slot < act.locals.length) (rest : List Instr) :
    runCode tuples call (.loadField f :: .tupleGet id index :: .storeLocal slot :: rest)
        act fields =
      runCode tuples call rest { act with locals := act.locals.set slot (.int v) }
        fields := by
  have hload : runCode tuples call
      (.loadField f :: .tupleGet id index :: .storeLocal slot :: rest) act fields =
        runCode tuples call (.tupleGet id index :: .storeLocal slot :: rest)
          (act.push (.tuple vs)) fields := by
    simp [runCode, Activation.step, Activation.fetch, hf, bind, Except.bind, pure, Except.pure]
  rw [hload, runCode_tupleGet tuples call htuple hv rfl]
  simp [runCode, Activation.step, bind, Except.bind, pure, Except.pure, Activation.push,
    Activation.pop, Activation.overwrite, hslot]

/-- A call with the receiver below the arguments. -/
theorem runCode_call {m : MethodId} {vs : List Int64} {act : Activation} {fields : Fields}
    {stack : List Value}
    (hs : act.stack = (vs.map Value.int).reverse ++ .receiver :: stack)
    (rest : List Instr) :
    runCode tuples call (.call m (vs.length + 1) :: rest) act fields =
      match call m (.receiver :: vs.map Value.int) fields with
      | (.error s, fields) => (.error s, fields)
      | (.ok (), fields) => runCode tuples call rest { act with stack } fields := by
  have hpop := popValues_eq (Value.receiver :: vs.map Value.int).reverse act [] stack
    (by simp [hs])
  rw [List.length_reverse, List.reverse_reverse, List.append_nil, List.length_cons,
    List.length_map] at hpop
  rcases hcall : call m (.receiver :: vs.map Value.int) fields with ⟨stop | _, fields'⟩ <;>
    simp [runCode, Activation.popCall, hpop, bind, Except.bind, pure, Except.pure, hcall]

end Code

/-! ## Stores and fields -/

theorem Store.lookup_write (store : Store) (name : String) (values : List Int64)
    (x : String) :
    (store.write name values).lookup x =
      if x = name then (store.lookup x).map fun _ => values else store.lookup x := by
  induction store with
  | nil => simp [write]
  | cons p store ih =>
      obtain ⟨y, vs⟩ := p
      simp only [write, List.map_cons] at ih ⊢
      by_cases hx : x = y
      · subst hx
        by_cases hname : x = name <;> simp [hname]
      · have hbeq : (x == y) = false := beq_eq_false_iff_ne.mpr hx
        by_cases hy : y = name
        · simp only [if_pos hy, List.lookup_cons, hbeq, ih]
        · simp only [if_neg hy, List.lookup_cons, hbeq, ih]

theorem index_unique {α : Type} {name : α → String} {l : List α} (hnodup : (l.map name).Nodup)
    {i j : Nat} {x y : α} (hi : l[i]? = some x) (hj : l[j]? = some y)
    (hname : name x = name y) : i = j := by
  refine (List.getElem?_inj ?_ hnodup).mp ?_
  · simpa using (List.getElem?_eq_some_iff.mp hi).1
  · simp [hi, hj, hname]

theorem Represents.write {a : Agent} (hnodup : (a.beliefs.map (·.name.name)).Nodup)
    {store : Store} {fields : Fields} (h : Represents a store fields) {f : FieldId}
    {b : Belief} (hb : a.beliefs[f]? = some b) {values : List Int64}
    (hlen : values.length = b.arity) :
    Represents a (store.write b.name.name values) (fields.set f (.tuple values)) := by
  have hf : f < fields.length := h.length ▸ (List.getElem?_eq_some_iff.mp hb).1
  refine ⟨by simp [h.length], fun i c hc => ?_⟩
  obtain ⟨vs, hvs, hfield, hlen'⟩ := h.value i c hc
  rw [Store.lookup_write, List.getElem?_set]
  by_cases hi : f = i
  · subst hi
    obtain rfl := Option.some.inj (hb.symm.trans hc)
    exact ⟨values, by simp [hvs], by simp [hf], hlen⟩
  · have hne : c.name.name ≠ b.name.name := fun hname =>
      hi (index_unique hnodup hb hc hname.symm)
    exact ⟨vs, by simp [hne, hvs], by simp [hi, hfield], hlen'⟩

/-! ## Environments and slots -/

theorem Env.bind_cons (env : Env) (x : String) (v : Int64) (xs : List String)
    (vs : List Int64) : env.bind (x :: xs) (v :: vs) = Env.bind ((x, v) :: env) xs vs := by
  simp [Env.bind]

section Slots

variable {checkArity : Bool} {d d' : Draft} {known : List String} {env : Env}
  {act : Activation} {x : String} {b : Binding}

/-- A new name whose slot holds its integer. -/
theorem Matches.extend {v : Int64} (h : Matches checkArity d known env act)
    (hs : d'.scopes = d.scopes.extend x b) (hb : act.read b = some (.int v)) :
    Matches checkArity d' (known ++ [x]) ((x, v) :: env) act := by
  refine ⟨fun y hy => ?_, h.receiver⟩
  rw [hs, Scopes.lookup_extend, List.lookup_cons]
  by_cases hyx : y = x
  · exact ⟨b, by simp [hyx], by simp [hyx, hb], by simp [hyx]⟩
  · have hmem : y ∈ known := by simpa [hyx] using hy
    obtain ⟨c, hc, hr, hnone⟩ := h.value y hmem
    rw [beq_eq_false_iff_ne.mpr hyx]
    exact ⟨c, by simp [hyx, hc], hr, hnone⟩

/-- A new parameter that no argument is left for. -/
theorem Matches.extend_missing {slot : Nat} (h : Matches checkArity d known env act)
    (hc : checkArity = false) (hs : d'.scopes = d.scopes.extend x (.argument slot))
    (hx : env.lookup x = none) (hslot : act.args[slot]? = none) :
    Matches checkArity d' (known ++ [x]) env act := by
  refine ⟨fun y hy => ?_, h.receiver⟩
  rw [hs, Scopes.lookup_extend]
  by_cases hyx : y = x
  · subst hyx
    exact ⟨.argument slot, by simp, by simp [hx, Activation.read, hslot],
      fun _ => ⟨hc, slot, rfl⟩⟩
  · have hmem : y ∈ known := by simpa [hyx] using hy
    obtain ⟨c, hlook, hr, hnone⟩ := h.value y hmem
    exact ⟨c, by simp [hyx, hlook], hr, hnone⟩

/-- Slots that are not handed out yet are free to be written. -/
theorem Matches.set_local {outer : Frame} (h : Matches checkArity d known env act)
    (ht : d.Tracks outer known) (v : Value) :
    Matches checkArity d known env { act with locals := act.locals.set d.locals.length v } := by
  refine ⟨fun x hx => ?_, h.receiver⟩
  obtain ⟨b, hb, hr, hnone⟩ := h.value x hx
  refine ⟨b, hb, ?_, hnone⟩
  obtain ⟨c, hc, hslot⟩ := ht.slot_of_mem hx
  obtain rfl := Option.some.inj (hb.symm.trans hc)
  rcases hslot with ⟨s, rfl⟩ | ⟨l, hl, rfl⟩
  · exact hr
  · simpa [Activation.read, List.getElem?_set_ne (Nat.ne_of_gt hl)] using hr

end Slots

theorem Matches.bindParams {checkArity : Bool} {act : Activation} (params : List Param) :
    ∀ {d : Draft} {known : List String} {env : Env} (slot : Nat) (args : List Int64),
      Matches checkArity d known env act → act.args.drop slot = args.map Value.int →
      (checkArity = true → args.length = params.length) → (paramNames params).Nodup →
      (∀ x ∈ paramNames params, env.lookup x = none) →
      Matches checkArity (Draft.bindParams slot params d) (known ++ paramNames params)
        (env.bind (paramNames params) args) act := by
  induction params with
  | nil =>
      intro d known env slot args h _ _ _ _
      simpa [Draft.bindParams, paramNames, Env.bind] using h
  | cons p params ih =>
      intro d known env slot args h hargs hlen hnodup hnew
      rw [paramNames, List.map_cons, List.nodup_cons] at hnodup
      rw [paramNames, List.map_cons, List.forall_mem_cons] at hnew
      cases args with
      | nil =>
          have hc : checkArity = false := by
            cases checkArity with
            | false => rfl
            | true => cases hlen rfl
          have hle : act.args.length ≤ slot := List.drop_eq_nil_iff.mp hargs
          have hp : Matches checkArity
              { d with scopes := d.scopes.extend p.name.name (.argument slot) }
              (known ++ [p.name.name]) env act :=
            h.extend_missing hc rfl hnew.1 (List.getElem?_eq_none hle)
          have := ih (slot + 1) [] hp (by simp; omega) (by simp [hc]) hnodup.2 hnew.2
          simpa [Draft.bindParams, paramNames, Env.bind] using this
      | cons v args =>
          have hget : act.args[slot]? = some (.int v) := by
            have := congrArg (·[0]?) hargs
            simpa using this
          have hdrop : act.args.drop (slot + 1) = args.map Value.int := by
            have := congrArg List.tail hargs
            simpa using this
          have hp : Matches checkArity
              { d with scopes := d.scopes.extend p.name.name (.argument slot) }
              (known ++ [p.name.name]) ((p.name.name, v) :: env) act :=
            h.extend rfl hget
          have hnew' : ∀ x ∈ paramNames params, List.lookup x ((p.name.name, v) :: env) = none := by
            intro x hx
            have hne : x ≠ p.name.name := fun heq => hnodup.1 (heq ▸ hx)
            rw [List.lookup_cons, beq_eq_false_iff_ne.mpr hne]
            exact hnew.2 x hx
          have := ih (slot + 1) args hp hdrop (fun hc => Nat.succ.inj (hlen hc)) hnodup.2 hnew'
          simpa [Draft.bindParams, paramNames, Env.bind_cons] using this

/-! ## Statements -/

/-- What a call leaves behind: the same outcome, and fields that represent the
store. -/
inductive SameOutcome (checkArity : Bool) (a : Agent) :
    Except Failure Unit × Store → Except Stop Unit × Fields → Prop
  | ok {store : Store} {fields : Fields} : Represents a store fields →
      SameOutcome checkArity a (.ok (), store) (.ok (), fields)
  | error {f : Failure} {stop : Stop} {store : Store} {fields : Fields} :
      FailsLike checkArity f stop → Represents a store fields →
      SameOutcome checkArity a (.error f, store) (.error stop, fields)

/-- Members called by number do what members performed by name do. -/
def CallsAgree (checkArity : Bool) (a : Agent) (perform : Performance)
    (call : MethodId → List Value → Fields → Except Stop Unit × Fields) : Prop :=
  ∀ (j : Nat) (m : Member), a.members[j]? = some m →
    ∀ (args : List Int64) (store : Store) (fields : Fields),
      (checkArity = true → args.length = m.params.length) → Represents a store fields →
      SameOutcome checkArity a (perform m.name.name args store)
        (call j (.receiver :: args.map Value.int) fields)

/-- The code between two drafts does on matching states what `exec` does,
whatever code comes after it. -/
def Simulates (checkArity : Bool) (a : Agent) (tuples : List TupleDesc)
    (call : MethodId → List Value → Fields → Except Stop Unit × Fields)
    (exec : Env → Store → Except Failure Env × Store) (d : Draft) (known : List String)
    (d' : Draft) (known' : List String) : Prop :=
  d.locals.length ≤ d'.locals.length ∧ ∃ code, d'.code = d.code ++ code ∧
    ∀ (env : Env) (store : Store) (act : Activation) (fields : Fields) (rest : List Instr),
      Matches checkArity d known env act → Represents a store fields →
      d'.locals.length ≤ act.locals.length →
      match exec env store with
      | (.ok env', store') => ∃ act' fields',
        runCode tuples call (code ++ rest) act fields =
          runCode tuples call rest act' fields' ∧
        Matches checkArity d' known' env' act' ∧ SameShape act act' ∧ Represents a store' fields'
      | (.error f, store') => ∃ stop fields',
        runCode tuples call (code ++ rest) act fields = (.error stop, fields') ∧
        FailsLike checkArity f stop ∧ Represents a store' fields'

section Statements

variable {checkArity : Bool} {a : Agent} {tuples : List TupleDesc}
  {call : MethodId → List Value → Fields → Except Stop Unit × Fields}

theorem Simulates.nil {d : Draft} {known : List String} :
    Simulates checkArity a tuples call (fun env store => (.ok env, store)) d known d known :=
  ⟨Nat.le_refl _, [], by simp, fun _ _ act fields _ hm hr _ =>
    ⟨act, fields, rfl, hm, .refl act, hr⟩⟩

theorem Simulates.seq {exec exec' : Env → Store → Except Failure Env × Store}
    {d d' d'' : Draft} {known known' known'' : List String}
    (h : Simulates checkArity a tuples call exec d known d' known')
    (h' : Simulates checkArity a tuples call exec' d' known' d'' known'') :
    Simulates checkArity a tuples call (fun env store =>
        match exec env store with
        | (.error f, store) => (.error f, store)
        | (.ok env, store) => exec' env store) d known d'' known'' := by
  obtain ⟨hle, code, hcode, hrun⟩ := h
  obtain ⟨hle', code', hcode', hrun'⟩ := h'
  refine ⟨Nat.le_trans hle hle', code ++ code', by rw [hcode', hcode, List.append_assoc], ?_⟩
  intro env store act fields rest hm hr hlen
  have hfirst := hrun env store act fields (code' ++ rest) hm hr (Nat.le_trans hle' hlen)
  rw [List.append_assoc]
  rcases hx : exec env store with ⟨f | env', store'⟩
  · simp only [hx] at hfirst ⊢
    exact hfirst
  · simp only [hx] at hfirst ⊢
    obtain ⟨act', fields', heq, hm', hs, hr'⟩ := hfirst
    have hsecond := hrun' env' store' act' fields' rest hm' hr' (hs.locals ▸ hlen)
    rw [heq]
    rcases hy : exec' env' store' with ⟨f | env'', store''⟩
    · simpa only [hy] using hsecond
    · simp only [hy] at hsecond ⊢
      obtain ⟨act'', fields'', heq', hm'', hs', hr''⟩ := hsecond
      exact ⟨act'', fields'', heq', hm'', hs.trans hs', hr''⟩

/-- Elements of a belief moved into new locals. -/
theorem simulates_targets
    (call : MethodId → List Value → Fields → Except Stop Unit × Fields) {outer : Frame}
    {f : FieldId} {id : TupleId} {n : Nat}
    (htuple : tuples[id]? = some ⟨id, n⟩) (xs : List String) :
    ∀ (index : Nat) (d : Draft) (known : List String), d.Tracks outer known →
      index + xs.length = n →
      d.locals.length ≤ (Draft.bindTargets f id index xs d).locals.length ∧
      ∃ code, (Draft.bindTargets f id index xs d).code = d.code ++ code ∧
        ∀ (vs : List Int64) (env : Env) (act : Activation) (fields : Fields)
          (rest : List Instr), vs.length = n → fields[f]? = some (.tuple vs) →
          Matches checkArity d known env act →
          (Draft.bindTargets f id index xs d).locals.length ≤ act.locals.length →
          ∃ act', runCode tuples call (code ++ rest) act fields =
              runCode tuples call rest act' fields ∧
            Matches checkArity (Draft.bindTargets f id index xs d) (known ++ xs)
              (env.bind xs (vs.drop index)) act' ∧ SameShape act act' := by
  induction xs with
  | nil =>
      intro index d known _ _
      refine ⟨Nat.le_refl _, [], by simp [Draft.bindTargets], ?_⟩
      intro vs env act fields rest _ _ hm _
      exact ⟨act, rfl, by simpa [Draft.bindTargets, Env.bind] using hm, .refl act⟩
  | cons x xs ih =>
      intro index d known ht hlen
      simp only [List.length_cons] at hlen
      obtain ⟨hle, code, hcode, hrun⟩ := ih (index + 1) (d.bindTarget f id index x)
        (known ++ [x]) (ht.bindTarget f id index x) (by omega)
      have hone : d.locals.length < (d.bindTarget f id index x).locals.length := by
        simp [Draft.bindTarget]
      refine ⟨Nat.le_trans (Nat.le_of_lt hone) hle,
        .loadField f :: .tupleGet id index :: .storeLocal d.locals.length :: code,
        by rw [Draft.bindTargets, hcode]; simp [Draft.bindTarget], ?_⟩
      rintro vs env act fields rest rfl hf hm hlocals
      have hi : index < vs.length := by omega
      have hslot : d.locals.length < act.locals.length :=
        Nat.lt_of_lt_of_le hone (Nat.le_trans hle hlocals)
      have hm' : Matches checkArity (d.bindTarget f id index x) (known ++ [x])
          ((x, vs[index]) :: env)
          { act with locals := act.locals.set d.locals.length (.int vs[index]) } :=
        (hm.set_local ht _).extend rfl (by simp [Activation.read, hslot])
      obtain ⟨act', heq, hmatch, hshape⟩ := hrun vs _ _ fields rest rfl hf hm'
        (by rw [List.length_set]; exact hlocals)
      refine ⟨act', ?_, ?_, ?_⟩
      · exact (runCode_project tuples call htuple hf (List.getElem?_eq_getElem hi) hslot
          (code ++ rest)).trans heq
      · rw [List.drop_eq_getElem_cons hi, Env.bind_cons]
        simpa [Draft.bindTargets] using hmatch
      · exact ⟨hshape.args, by simpa using hshape.locals, hshape.stack⟩

end Statements

/-! ## Names of the agent -/

theorem Agent.field_of_lookup {a : Agent} {visible f n : Nat} {x : String}
    (h : (a.frame visible).lookup x = some (.field f n)) :
    ∃ b, a.beliefs[f]? = some b ∧ b.name.name = x ∧ b.arity = n := by
  obtain ⟨l₁, l₂, heq, -⟩ := List.lookup_eq_some_iff.mp h
  exact mem_frame_field.mp (by rw [heq]; simp)

theorem Agent.member_of_lookup {a : Agent} {visible j n : Nat} {x : String}
    (h : (a.frame visible).lookup x = some (.callable j n)) :
    ∃ m, a.members[j]? = some m ∧ m.name.name = x ∧ m.params.length = n := by
  obtain ⟨l₁, l₂, heq, -⟩ := List.lookup_eq_some_iff.mp h
  exact (mem_frame_callable.mp (by rw [heq]; simp)).2

theorem mapM_name? {args : List Expr} {xs : List String}
    (h : args.map Expr.name? = xs.map some) : args.mapM Expr.name? = some xs := by
  induction args generalizing xs with
  | nil =>
      cases xs with
      | nil => rfl
      | cons x xs => cases h
  | cons arg args ih =>
      cases xs with
      | nil => cases h
      | cons x xs =>
          simp only [List.map_cons, List.cons.injEq] at h
          simp [h.1, ih h.2]

theorem TupleTable.descriptor_of_describe {t : TupleTable} {n : Nat} {id : TupleId}
    (h : t.describe n = (.ok id, t)) : t.descriptors[id]? = some ⟨id, n⟩ := by
  rw [getElem?_descriptors, (describe_ok h).1, Option.map_some]

/-! ## Statements and bodies -/

section Bodies

variable {checkArity : Bool} {a : Agent} {visible : Nat} {perform : Performance}
  {call : MethodId → List Value → Fields → Except Stop Unit × Fields}

theorem simulates_query {d d' : Draft} {known : List String} {s : Stmt}
    (ht : d.Tracks (a.frame visible) known) (hk : s.kind = .query)
    (he : Draft.Effect (a.frame visible) s d d') :
    Simulates checkArity a d.tuples.descriptors call (s.exec perform) d known d'
      (known ++ s.targets) := by
  simp only [Draft.Effect, hk] at he
  obtain ⟨f, id, xs, hl, hready, hxs, rfl⟩ := he
  obtain ⟨b, hb, hname, harity⟩ := Agent.field_of_lookup hl
  have hlen : xs.length = s.term.args.length := by
    simpa using (congrArg List.length hxs).symm
  have htargets : s.targets = xs := by
    simp only [Stmt.targets, hk]
    exact Draft.filterMap_name?_eq hxs
  obtain ⟨hle, code, hcode, hrun⟩ := simulates_targets call (f := f)
    (TupleTable.descriptor_of_describe hready) xs 0 d known ht (by omega)
  refine ⟨hle, code, hcode, ?_⟩
  intro env store act fields rest hm hr hlocals
  obtain ⟨vs, hvs, hfield, hvlen⟩ := hr.value f b hb
  obtain ⟨act', heq, hm', hshape⟩ := hrun vs env act fields rest (hvlen.trans harity) hfield
    hm hlocals
  have hexec : s.exec perform env store = (.ok (env.bind xs vs), store) := by
    simp [Stmt.exec, hk, ← hname, hvs, mapM_name? hxs, hlen, hvlen, harity]
  rw [hexec, htargets]
  exact ⟨act', fields, heq, hm', hshape, hr⟩

theorem simulates_update {d d' : Draft} {known : List String} {s : Stmt}
    (hnodup : (a.beliefs.map (·.name.name)).Nodup) (hk : s.kind = .update)
    (he : Draft.Effect (a.frame visible) s d d') (hnames : ∀ x ∈ s.term.names, x ∈ known) :
    Simulates checkArity a d.tuples.descriptors call (s.exec perform) d known d'
      (known ++ s.targets) := by
  simp only [Draft.Effect, hk] at he
  obtain ⟨f, id, hl, hready, rfl⟩ := he
  obtain ⟨b, hb, hname, harity⟩ := Agent.field_of_lookup hl
  have htargets : s.targets = [] := by simp [Stmt.targets, hk]
  refine ⟨Nat.le_refl _, _, rfl, ?_⟩
  intro env store act fields rest hm hr hlocals
  have hargs := runCode_exprs d.tuples.descriptors call s.term.args fields
    (.makeTuple id :: .storeField f :: rest) hm hnames
  rw [htargets, List.append_nil, List.append_assoc]
  cases hvs : evalAll env s.term.args with
  | error e =>
      rw [hvs] at hargs
      obtain ⟨stop, hf, heq⟩ := hargs
      simp only [Stmt.exec, hk, hvs]
      exact ⟨stop, fields, heq, hf, hr⟩
  | ok vs =>
      rw [hvs] at hargs
      obtain ⟨hlen, heq⟩ := hargs
      obtain ⟨old, hold, hfield, -⟩ := hr.value f b hb
      have hf : f < fields.length := (List.getElem?_eq_some_iff.mp hfield).1
      have hpack := heq.trans (runCode_pack d.tuples.descriptors call
        (hlen ▸ TupleTable.descriptor_of_describe hready) hf rfl rest)
      simp only [Stmt.exec, hk, hvs, ← hname, hold, Option.isSome_some, if_true]
      exact ⟨act, _, hpack, hm.emit _, .refl act, hr.write hnodup hb (by omega)⟩

theorem simulates_invoke {d d' : Draft} {known : List String} {s : Stmt}
    (hcalls : CallsAgree checkArity a perform call) (hk : s.kind = .invoke)
    (he : Draft.Effect (a.frame visible) s d d')
    (hres : Draft.Resolves checkArity (a.frame visible) known s) :
    Simulates checkArity a d.tuples.descriptors call (s.exec perform) d known d'
      (known ++ s.targets) := by
  simp only [Draft.Effect, hk] at he
  simp only [Draft.Resolves, hk] at hres
  obtain ⟨j, n, hl, rfl⟩ := he
  obtain ⟨-, ⟨j', n', hl', hn⟩, hnames⟩ := hres
  obtain ⟨m, hm, hname, hparams⟩ := Agent.member_of_lookup hl
  obtain ⟨rfl, rfl⟩ : j = j' ∧ n = n' := by simpa [hl] using hl'
  have htargets : s.targets = [] := by simp [Stmt.targets, hk]
  refine ⟨Nat.le_refl _, _, rfl, ?_⟩
  intro env store act fields rest hma hr hlocals
  rw [htargets, List.append_nil, List.append_assoc]
  have hself : act.read (.argument 0) = some .receiver := hma.receiver
  obtain ⟨instr, hinstr, hload⟩ := runCode_load d.tuples.descriptors call hself
  obtain rfl := Option.some.inj hinstr
  have hargs := runCode_exprs d.tuples.descriptors call s.term.args fields
    (.call j (s.term.args.length + 1) :: rest) (hma.stack (.receiver :: act.stack)) hnames
  cases hvs : evalAll env s.term.args with
  | error e =>
      rw [hvs] at hargs
      obtain ⟨stop, hf, heq⟩ := hargs
      simp only [Stmt.exec, hk, hvs]
      exact ⟨stop, fields, (hload _ _).trans heq, hf, hr⟩
  | ok vs =>
      rw [hvs] at hargs
      obtain ⟨hlen, heq⟩ := hargs
      rw [← hlen] at heq ⊢
      have hrun := (hload _ _).trans (heq.trans (runCode_call d.tuples.descriptors call rfl rest))
      have hsame := hcalls j m hm vs store fields
        (fun hc => by rw [hlen, hn hc, hparams]) hr
      simp only [Stmt.exec, hk, hvs, ← hname]
      rcases hp : perform m.name.name vs store with ⟨r, store'⟩
      rcases hc : call j (.receiver :: vs.map Value.int) fields with ⟨r', fields'⟩
      rw [hp, hc] at hsame
      rw [hc] at hrun
      cases hsame with
      | ok hr' => exact ⟨act, fields', hrun, hma.emit _, .refl act, hr'⟩
      | error hf hr' => exact ⟨_, fields', hrun, hf, hr'⟩

theorem simulates_statement {d d' : Draft} {known : List String} {s : Stmt}
    (hnodup : (a.beliefs.map (·.name.name)).Nodup) (hcalls : CallsAgree checkArity a perform call)
    (ht : d.Tracks (a.frame visible) known) (he : Draft.Effect (a.frame visible) s d d')
    (hres : Draft.Resolves checkArity (a.frame visible) known s) :
    Simulates checkArity a d.tuples.descriptors call (s.exec perform) d known d'
      (known ++ s.targets) := by
  cases hk : s.kind with
  | query => exact simulates_query ht hk he
  | update =>
      refine simulates_update hnodup hk he ?_
      simp only [Draft.Resolves, hk] at hres
      exact hres.2.2
  | invoke => exact simulates_invoke hcalls hk he hres

theorem simulates_body (hnodup : (a.beliefs.map (·.name.name)).Nodup)
    (hcalls : CallsAgree checkArity a perform call) {stmts : List Stmt} :
    ∀ {d d' : Draft} {known : List String}, d.Tracks (a.frame visible) known →
      Draft.Effects (a.frame visible) stmts d d' →
      Draft.BodyResolves checkArity (a.frame visible) known stmts →
      Simulates checkArity a d.tuples.descriptors call (execBody perform stmts) d known d'
        (known ++ stmts.flatMap Stmt.targets) := by
  induction stmts with
  | nil =>
      rintro d d' known _ rfl _
      rw [List.flatMap_nil, List.append_nil]
      exact Simulates.nil
  | cons s stmts ih =>
      rintro d d' known ht ⟨d₁, he, hes⟩ ⟨hres, hbody⟩
      have hfirst := simulates_statement hnodup hcalls ht he hres
      have hrest := ih (he.tracks ht) hes hbody
      rw [he.shape.1, List.append_assoc] at hrest
      exact hfirst.seq hrest

end Bodies

end AgentLang
