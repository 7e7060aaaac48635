import AgentLang.Proofs.Simulation
import AgentLang.Proofs.Termination

/-!
# Expressions on the machine

The code of an expression is run on any activation whose slots hold integers for the names
of the expression, over any operand stack. It leaves one integer more on the stack, the
value that the expression has over these integers, and nothing else is changed; or it
stops with a division by zero.

When it stops is said without evaluating in any order: some sub-expression is a division
whose operands have values that have no quotient (`Expr.LacksQuotient`). That evaluation
fails for this reason and for no other is `Expr.eval_cases`. That no slot and no field is
written, not even on the way to a failure, follows from the instructions that expressions
are made of (`runCode_keeps`).
-/

namespace AgentLang

/-! ## Values of expressions -/

/-- The expression and all that it is built from. -/
def Expr.subexprs : Expr → List Expr
  | ident name span => [.ident name span]
  | number value span => [.number value span]
  | binary op left right span =>
    .binary op left right span :: (left.subexprs ++ right.subexprs)

/-- A division of two values by zero, or of the least integer by -1. -/
def Expr.LacksQuotient (env : Env) (e : Expr) : Prop :=
  ∃ left right span x y, e = .binary .div left right span ∧ left.eval env = .ok x ∧
    right.eval env = .ok y ∧ (y = 0 ∨ x = Int64.minValue ∧ y = -1)

theorem BinOp.meaning_eq_none_iff {op : BinOp} {x y : Int64} :
    op.meaning x y = none ↔ op = .div ∧ (y = 0 ∨ x = Int64.minValue ∧ y = -1) := by
  rw [← apply?_eq_meaning]
  cases op <;> simp [quotient?, BinOp.apply?, or_iff_not_imp_left]

section Values

variable {env : Env} {left right : Expr} {x y : Int64}

theorem Expr.lacksQuotient_binary_iff (hl : left.eval env = .ok x) (hr : right.eval env = .ok y)
    (op : BinOp) (span : Span) :
    (Expr.binary op left right span).LacksQuotient env ↔ op.meaning x y = none := by
  rw [BinOp.meaning_eq_none_iff]
  constructor
  · rintro ⟨left', right', span', x', y', he, hx, hy, hxy⟩
    obtain ⟨rfl, rfl, rfl, rfl⟩ := Expr.binary.inj he
    obtain rfl := Except.ok.inj (hl.symm.trans hx)
    obtain rfl := Except.ok.inj (hr.symm.trans hy)
    exact ⟨rfl, hxy⟩
  · rintro ⟨rfl, hxy⟩
    exact ⟨left, right, span, x, y, rfl, hl, hr, hxy⟩

/-- An expression whose names are bound has a value, unless a division in it has none. -/
theorem Expr.eval_cases (e : Expr) (h : ∀ name ∈ e.names, (env.lookup name).isSome = true) :
    (∃ v, e.eval env = .ok v ∧ ∀ sub ∈ e.subexprs, ¬sub.LacksQuotient env) ∨
      (e.eval env = .error .divisionByZero ∧ ∃ sub ∈ e.subexprs, sub.LacksQuotient env) := by
  induction e with
  | ident name span =>
      obtain ⟨v, hv⟩ := Option.isSome_iff_exists.mp (h name (by simp [names]))
      exact .inl ⟨v, by simp [eval, hv], by simp [subexprs, LacksQuotient]⟩
  | number value span => exact .inl ⟨value, rfl, by simp [subexprs, LacksQuotient]⟩
  | binary op left right span ihl ihr =>
      simp only [names, List.mem_append] at h
      rcases ihl fun name hn => h name (.inl hn) with ⟨x, hx, hlacksl⟩ | ⟨hl, sub, hsub, hlacks⟩
      · rcases ihr fun name hn => h name (.inr hn) with ⟨y, hy, hlacksr⟩ | ⟨hr, sub, hsub, hlacks⟩
        · -- both operands have values, so it is up to this operator
          have hhere := lacksQuotient_binary_iff hx hy op span
          cases hv : op.meaning x y with
          | some v =>
              refine .inl ⟨v, by simp [eval, hx, hy, hv], ?_⟩
              simp only [subexprs, List.forall_mem_cons, List.forall_mem_append]
              exact ⟨by simp [hhere, hv], hlacksl, hlacksr⟩
          | none =>
              exact .inr ⟨by simp [eval, hx, hy, hv], _, by simp [subexprs], hhere.mpr hv⟩
        · exact .inr ⟨by simp [eval, hx, hr], sub, by simp [subexprs, hsub], hlacks⟩
      · exact .inr ⟨by simp [eval, hl], sub, by simp [subexprs, hsub], hlacks⟩

end Values

/-! ## Integers in slots -/

/-- The integer of a name that is bound to an argument or a local, if its slot holds one. -/
def Activation.integer? (act : Activation) (scopes : Scopes) (name : String) : Option Int64 :=
  match (scopes.lookup name).bind act.read with
  | some (.int v) => some v
  | _ => none

/-- The integers that the slots hold for some names. -/
def Activation.env (act : Activation) (scopes : Scopes) (names : List String) : Env :=
  names.filterMap fun name => (act.integer? scopes name).map (name, ·)

section Slots

variable {act : Activation} {scopes : Scopes} {name : String} {v : Int64}

theorem Activation.integer?_eq_some_iff :
    act.integer? scopes name = some v ↔
      ∃ b, scopes.lookup name = some b ∧ act.read b = some (.int v) := by
  rw [integer?, ← Option.bind_eq_some_iff]
  split <;> simp_all

theorem Activation.lookup_env (h : act.integer? scopes name = some v) {names : List String}
    (hname : name ∈ names) : (act.env scopes names).lookup name = some v := by
  induction names with
  | nil => cases hname
  | cons y names ih =>
      by_cases hy : name = y
      · subst hy
        simp [env, h]
      · have hlater := ih ((List.mem_cons.mp hname).resolve_left hy)
        unfold env at hlater ⊢
        cases hv : act.integer? scopes y with
        | none => simpa [hv] using hlater
        | some w => simpa [hv, List.lookup_cons, beq_eq_false_iff_ne.mpr hy] using hlater

end Slots

/-! ## What is not written -/

/-- Instructions that write nothing but the stack. Expressions are made of these. -/
inductive Instr.Computes : Instr → Prop
  | loadArg (slot : Nat) : Computes (.loadArg slot)
  | loadLocal (slot : LocalId) : Computes (.loadLocal slot)
  | push (value : Int64) : Computes (.push value)
  | arith (op : BinOp) : Computes (.arith op)

theorem Instr.Computes.ne_ret {i : Instr} (h : i.Computes) : i ≠ .ret := by
  cases h <;> simp

theorem Instr.Computes.callee?_eq_none {i : Instr} (h : i.Computes) : i.callee? = none := by
  cases h <;> rfl

theorem Expr.code_computes (scopes : Scopes) (e : Expr) : ∀ i ∈ e.code scopes, i.Computes := by
  induction e with
  | ident name span =>
      intro i hi
      simp only [code, Option.mem_toList, Option.bind_eq_some_iff] at hi
      obtain ⟨b, -, hi⟩ := hi
      cases b with
      | argument slot =>
          obtain rfl := Option.some.inj hi
          exact .loadArg slot
      | localSlot slot =>
          obtain rfl := Option.some.inj hi
          exact .loadLocal slot
      | field | callable => cases hi
  | number value span => simpa [code] using .push value
  | binary op left right span ihl ihr =>
      simp only [code, List.forall_mem_append, List.forall_mem_singleton]
      exact ⟨⟨ihl, ihr⟩, .arith op⟩

/-- Arguments and locals are the same. -/
structure Activation.SameSlots (act act' : Activation) : Prop where
  args : act'.args = act.args
  locals : act'.locals = act.locals

theorem Activation.SameSlots.refl (act : Activation) : act.SameSlots act := ⟨rfl, rfl⟩

theorem Activation.SameSlots.trans {act act' act'' : Activation} (h : act.SameSlots act')
    (h' : act'.SameSlots act'') : act.SameSlots act'' :=
  ⟨h'.args.trans h.args, h'.locals.trans h.locals⟩

section Keeping

variable {tuples : List TupleDesc}
  {call : MethodId → List Value → Fields → Except Stop Unit × Fields} {fields : Fields}

theorem pop_sameSlots {act act' : Activation} {v : Value} (h : act.pop = .ok (v, act')) :
    act.SameSlots act' := by
  unfold Activation.pop at h
  split at h <;> cases h
  exact ⟨rfl, rfl⟩

theorem popInteger_sameSlots {act act' : Activation} {n : Int64}
    (h : act.popInteger = .ok (n, act')) : act.SameSlots act' := by
  obtain ⟨⟨v, act₁⟩, hpop, h⟩ := bind_eq_ok.mp h
  cases v <;> cases h
  exact pop_sameSlots hpop

theorem step_keeps {act act' : Activation} {fields' : Fields} {i : Instr} (hi : i.Computes)
    (h : act.step tuples fields i = .ok (act', fields')) :
    act.SameSlots act' ∧ fields' = fields := by
  cases hi with
  | loadArg slot =>
      obtain ⟨v, -, h⟩ := bind_eq_ok.mp h
      cases h
      exact ⟨⟨rfl, rfl⟩, rfl⟩
  | loadLocal slot =>
      obtain ⟨v, -, h⟩ := bind_eq_ok.mp h
      cases h
      exact ⟨⟨rfl, rfl⟩, rfl⟩
  | push value =>
      cases h
      exact ⟨⟨rfl, rfl⟩, rfl⟩
  | arith op =>
      obtain ⟨⟨right, act₁⟩, hright, h⟩ := bind_eq_ok.mp h
      obtain ⟨⟨left, act₂⟩, hleft, h⟩ := bind_eq_ok.mp h
      have hpops := (popInteger_sameSlots hright).trans (popInteger_sameSlots hleft)
      simp only at h
      split at h <;> cases h
      exact ⟨⟨hpops.args, hpops.locals⟩, rfl⟩

theorem runCode_keeps {code : List Instr} (hcode : ∀ i ∈ code, i.Computes) :
    ∀ act : Activation, (runCode tuples call code act fields).2 = fields ∧
      ∀ act', (runCode tuples call code act fields).1 = .ok act' → act.SameSlots act' := by
  induction code with
  | nil =>
      intro act
      refine ⟨rfl, fun act' h => ?_⟩
      obtain rfl := Except.ok.inj h
      exact .refl act
  | cons i code ih =>
      intro act
      obtain ⟨hi, hcode⟩ := List.forall_mem_cons.mp hcode
      rw [runCode_plain hi.ne_ret hi.callee?_eq_none]
      rcases hstep : act.step tuples fields i with f | ⟨act₁, fields₁⟩
      · exact ⟨rfl, fun act' h => nomatch h⟩
      · obtain ⟨hslots, rfl⟩ := step_keeps hi hstep
        obtain ⟨hfields, hlater⟩ := ih hcode act₁
        exact ⟨hfields, fun act' h => hslots.trans (hlater act' h)⟩

end Keeping

/-! ## Running the code -/

section Running

variable {d : Draft} {e : Expr} {act : Activation}

theorem Activation.supplies_env
    (h : ∀ name ∈ e.names, (act.integer? d.scopes name).isSome = true) :
    ∀ name ∈ e.names, act.Supplies true d.scopes (act.env d.scopes e.names) name := by
  intro name hname
  obtain ⟨v, hv⟩ := Option.isSome_iff_exists.mp (h name hname)
  rw [Supplies, lookup_env hv hname]
  exact integer?_eq_some_iff.mp hv

/-- Names that have integers are no mistake. -/
theorem Draft.evaluate_eq_emit
    (h : ∀ name ∈ e.names, (act.integer? d.scopes name).isSome = true) :
    d.evaluate [e] = d.emit (e.code d.scopes) := by
  have hfaults : e.faults d.scopes = [] := by
    refine (e.faults_eq_nil_iff d.scopes).mpr fun name hname => ?_
    obtain ⟨v, hv⟩ := Option.isSome_iff_exists.mp (h name hname)
    obtain ⟨b, hb, hread⟩ := Activation.integer?_eq_some_iff.mp hv
    cases b with
    | argument | localSlot => simp [hb]
    | field | callable => cases hread
  simp [evaluate, report, hfaults]

end Running

/-- **Expression code computes the expression.** Let each name of an expression be bound to an
argument or a local whose slot holds an integer. Then the expression is compiled without a
complaint, and at no point of its run has the code written an argument, a local or a field. If
no division in the expression lacks a quotient, the run pushes the value of the expression, and
otherwise it stops with a division by zero. -/
theorem expression_code_computes (d : Draft) (e : Expr) (act : Activation) (fields : Fields)
    (tuples : List TupleDesc) (call : MethodId → List Value → Fields → Except Stop Unit × Fields)
    (hslots : ∀ name ∈ e.names, (act.integer? d.scopes name).isSome = true) :
    let env := act.env d.scopes e.names
    ∃ code, d.evaluate [e] = d.emit code ∧
      (∀ front, front <+: code → (runCode tuples call front act fields).2 = fields ∧
        ∀ act', (runCode tuples call front act fields).1 = .ok act' → act.SameSlots act') ∧
      ((∃ v, e.eval env = .ok v ∧ (∀ sub ∈ e.subexprs, ¬sub.LacksQuotient env) ∧
          runCode tuples call code act fields = (.ok (act.push (.int v)), fields)) ∨
        ((∃ sub ∈ e.subexprs, sub.LacksQuotient env) ∧
          ∃ fault, fault.message = "division by zero" ∧
            runCode tuples call code act fields = (.error (.fault fault), fields))) := by
  intro env
  have hsupplies := Activation.supplies_env hslots
  have hbound : ∀ name ∈ e.names, (env.lookup name).isSome = true := fun name hname => by
    obtain ⟨v, hv⟩ := Option.isSome_iff_exists.mp (hslots name hname)
    rw [Activation.lookup_env hv hname, Option.isSome_some]
  have hrun := runCode_expr tuples call e fields [] hsupplies
  rw [List.append_nil] at hrun
  refine ⟨e.code d.scopes, Draft.evaluate_eq_emit hslots, fun front hfront => ?_, ?_⟩
  · exact runCode_keeps (fun i hi => e.code_computes d.scopes i (hfront.subset hi)) act
  · rcases e.eval_cases hbound with ⟨v, hv, hquotients⟩ | ⟨hfails, hlacks⟩
    · rw [hv] at hrun
      exact .inl ⟨v, hv, hquotients, hrun⟩
    · rw [hfails] at hrun
      obtain ⟨stop, hstop, hrun⟩ := hrun
      cases hstop.strict
      exact .inr ⟨hlacks, .divisionByZero, rfl, hrun⟩

/-- `x` is the first argument after the receiver and `y` the first local. -/
def draftOfXY : Draft :=
  ⟨⟨[[("x", .argument 1), ("y", .localSlot 0)]]⟩, .empty, ["y"], [], []⟩

/-- `x` is 7 and `y` is 2, over a tuple on the stack. -/
def slotsOfXY : Activation := ⟨[.receiver, .int 7], [.int 2], [.tuple [4]]⟩

/-- `x - y - 3` -/
def difference : Expr :=
  .join .sub (.join .sub (.ident "x" .nowhere) (.ident "y" .nowhere)) (.number 3 .nowhere)

/-- The least integer divided by `y - 3`, which is -1. -/
def overlargeQuotient : Expr :=
  .join .div (.number Int64.minValue .nowhere)
    (.join .sub (.ident "y" .nowhere) (.number 3 .nowhere))

theorem difference_pushed_quotient_stops :
    let run := fun e => runCode [] (callMethod [] [] 0) (draftOfXY.evaluate [e]).code slotsOfXY []
    run difference = (.ok (slotsOfXY.push (.int 2)), []) ∧
      ∃ fault, fault.message = "division by zero" ∧
        run overlargeQuotient = (.error (.fault fault), []) := by
  obtain ⟨code, hcode, -, hdiff⟩ := expression_code_computes draftOfXY difference slotsOfXY []
    [] (callMethod [] [] 0) (by decide)
  obtain ⟨code', hcode', -, hquot⟩ := expression_code_computes draftOfXY overlargeQuotient
    slotsOfXY [] [] (callMethod [] [] 0) (by decide)
  simp only [hcode, hcode']
  constructor
  · rcases hdiff with ⟨v, hv, -, hrun⟩ | ⟨hlacks, -⟩
    · obtain rfl : v = 2 := (Except.ok.inj hv).symm
      exact hrun
    · simp [difference, Expr.join, Expr.subexprs, Expr.LacksQuotient] at hlacks
  · rcases hquot with ⟨v, hv, -⟩ | ⟨-, hstops⟩
    · cases hv
    · exact hstops

end AgentLang
